/-
  Kanagawa.Library.AccumulatingCalls

  What calls of accumulating buffers leave and output (`data/buffer/accumulating.k`).

  The first threads of a call pass the stored flits to the callback, and the last
  one or two enqueue.  Which of them do what depends on where the elements end in
  the last flit.  A call, whatever its case, passes the first of its elements to
  the callback and keeps the others, and a run of calls outputs what it was given.
-/
import Kanagawa.Library.AccumulatingBuffer

namespace Kanagawa.Library

open Runs Lib.Except

namespace MultiAccumulatingBuffer

variable {T : Type} [Inhabited T] {size bufferCount flitCount inputSize : Nat}

/-! ### Flits -/

omit [Inhabited T] in
theorem length_chunk {xs : List T} {i : Nat} (h : (i + 1) * size ≤ xs.length) :
    (chunk size xs i).length = size := by
  rw [Nat.add_mul, Nat.one_mul] at h
  rw [chunk, List.length_take, List.length_drop]
  omega

omit [Inhabited T] in
/-- A full flit stays when elements are appended. -/
theorem chunk_append {xs : List T} {i : Nat} (h : (i + 1) * size ≤ xs.length) (ys : List T) :
    chunk size (xs ++ ys) i = chunk size xs i := by
  rw [Nat.add_mul, Nat.one_mul] at h
  rw [chunk, chunk, List.drop_append_of_le_length (by omega), List.take_append_of_le_length]
  rw [List.length_drop]
  omega

omit [Inhabited T] in
theorem chunk_eq_of_div {xs : List T} {i : Nat} (hi : i < xs.length / size) :
    (i + 1) * size ≤ xs.length :=
  (Nat.mul_le_mul_right size hi).trans (Nat.div_mul_le_self xs.length size)

theorem flit_address_lt (flitCount : Nat) {b i : Nat} (hb : b < bufferCount)
    (hi : i < flitCount - 1) :
    b * (flitCount - 1) + i < flitBufferDepth bufferCount flitCount := by
  have hne : flitCount ≠ 1 := by omega
  rw [flitBufferDepth, if_neg hne, Nat.mul_comm (flitCount - 1)]
  have hle : (b + 1) * (flitCount - 1) ≤ bufferCount * (flitCount - 1) :=
    Nat.mul_le_mul_right _ hb
  rw [Nat.add_mul, Nat.one_mul] at hle
  omega

/-- A call of the callback passes a flit of the elements. -/
structure IsFlit (zs : List T) (count i : Nat) (callback : FlitCallback T size) : Prop where
  index : callback.index = i
  count : callback.count = count
  valueCount : callback.valueCount = (chunk size zs i).length
  data : StartsWith callback.data (chunk size zs i)

/-- The calls of the callback have passed the first flits of the elements. -/
structure Emitted (zs : List T) (count emitted : Nat) (callbacks : List (FlitCallback T size)) :
    Prop where
  length : callbacks.length = emitted
  flit : ∀ (i : Nat) (h : i < callbacks.length), IsFlit zs count i callbacks[i]

omit [Inhabited T] in
theorem Emitted.append {zs : List T} {count emitted : Nat} {callbacks : List (FlitCallback T size)}
    (h : Emitted zs count emitted callbacks) {callback : FlitCallback T size}
    (hcallback : IsFlit zs count emitted callback) :
    Emitted zs count (emitted + 1) (callbacks ++ [callback]) := by
  have hlen := h.length
  refine ⟨by simp [hlen], fun i hi => ?_⟩
  rw [List.length_append, List.length_singleton] at hi
  by_cases hlt : i < callbacks.length
  · rw [List.getElem_append_left hlt]
    exact h.flit i hlt
  · have heq : i = emitted := by omega
    subst heq
    rw [List.getElem_append_right (by omega)]
    simpa using hcallback

/-! ### Threads that call the callback -/

/-- What holds after the first threads of a call that passes `zs` to the callback: the flits of
    these threads have been passed on, the stored flits of the others are still there, and the
    context holds `xs`. -/
structure Passing (base : MultiAccumulatingBuffer T size bufferCount flitCount) (b : Nat)
    (zs : List T) (count stored : Nat) (m : Nat) (xs : List T)
    (o : Outcome T size bufferCount flitCount) : Prop where
  emitted : Emitted zs count m o.callbacks
  context : o.buffer.ContextHolds b xs
  elements : o.buffer.elementCount = base.elementCount
  frame : Frame b base o.buffer
  flits : ∀ i, m ≤ i → i < stored → ∀ u,
    StartsWith (o.buffer.flitBuffer.read (b * (flitCount - 1) + i) u) (chunk size zs i)

section Passing

variable (unknown : Vector T size) {call : AccumulatingCall T inputSize} {p : Plan}
  {base : MultiAccumulatingBuffer T size bufferCount flitCount}
  {o : Outcome T size bufferCount flitCount} {zs xs : List T} {stored m : Nat}

/-- What a call that passes `zs` to the callback relies on. -/
structure Plan.Passes (p : Plan) (call : AccumulatingCall T inputSize)
    (size bufferCount flitCount : Nat) (zs : List T) (stored : Nat) : Prop where
  runs : p.Runs size flitCount inputSize
  flushes : 0 < p.numElementsToFlush
  threads_le : p.threadCount ≤ flitCount
  size_pos : 0 < size
  input_le : inputSize ≤ size
  index_lt : call.bufferIndex < bufferCount
  count_le : call.valueCount ≤ inputSize
  stored_lt : stored < flitCount
  full : stored * size ≤ zs.length

omit [Inhabited T] in
theorem callOfThread_index (call : AccumulatingCall T inputSize) (p : Plan) (tid : Nat) :
    (callOfThread call p tid).bufferIndex = call.bufferIndex := by
  unfold callOfThread
  split
  · split <;> rfl
  · rfl

omit [Inhabited T] in
theorem callOfThread_count_le (hn : call.valueCount ≤ inputSize) (p : Plan) (tid : Nat) :
    (callOfThread call p tid).valueCount ≤ inputSize := by
  unfold callOfThread
  split
  · split
    · exact hn
    · exact Nat.zero_le _
  · exact hn

omit [Inhabited T] in
theorem Plan.Passes.address (hp : p.Passes call size bufferCount flitCount zs stored) :
    flitAddress flitCount call.bufferIndex p m = call.bufferIndex * (flitCount - 1) + m := by
  rw [flitAddress, if_neg (Nat.ne_of_gt hp.flushes), Nat.add_zero]

/-- A thread that passes a stored flit on. -/
theorem passing_stored (h : Passing base call.bufferIndex zs p.threadCount stored m xs o)
    (hp : p.Passes call size bufferCount flitCount zs stored)
    {enqueueResult : Option (AccumulatingOutput T size)} {xs' : List T}
    {s' : MultiAccumulatingBuffer T size bufferCount flitCount}
    (henqueue : o.buffer.enqueueOfThread call p m = .ok (enqueueResult, s'))
    (hnone : flitOf enqueueResult = none) (hm : m < stored)
    (hcontext : s'.ContextHolds call.bufferIndex xs')
    (helements : s'.elementCount = o.buffer.elementCount)
    (hflits : s'.flitBuffer = o.buffer.flitBuffer)
    (hframe : Frame call.bufferIndex o.buffer s') :
    ∃ o', runThread unknown call p o m = .ok o' ∧
      Passing base call.bufferIndex zs p.threadCount stored (m + 1) xs' o' := by
  have hlt := hp.stored_lt
  have haddr := flit_address_lt flitCount (i := m) hp.index_lt (by omega)
  have hrun := runThread_eq unknown hp.address henqueue
    (fun hzero => absurd hzero (Nat.ne_of_gt hp.flushes))
    (fun hsome => by simp [hnone] at hsome)
    (fun _ => ⟨by omega, hp.threads_le, hp.size_pos, fun _ => haddr⟩)
  rw [hnone] at hrun
  have hfull : (m + 1) * size ≤ zs.length :=
    (Nat.mul_le_mul_right size hm).trans hp.full
  refine ⟨_, hrun, ?_, hcontext, helements.trans h.elements, h.frame.trans hframe,
    fun i hi hi' u => ?_⟩
  · rw [if_pos hp.flushes]
    refine h.emitted.append ⟨rfl, rfl, (length_chunk hfull).symm, ?_⟩
    show StartsWith (s'.flitBuffer.read _ unknown) _
    rw [hflits]
    exact h.flits m (Nat.le_refl m) hm unknown
  · show StartsWith (s'.flitBuffer.read _ u) _
    rw [hflits]
    exact h.flits i (by omega) hi' u

/-- A thread that passes the flit of its `enqueue` on. -/
theorem passing_enqueued (h : Passing base call.bufferIndex zs p.threadCount stored m xs o)
    (hp : p.Passes call size bufferCount flitCount zs stored)
    {out : AccumulatingOutput T size} {xs' : List T}
    {s' : MultiAccumulatingBuffer T size bufferCount flitCount}
    (henqueue : o.buffer.enqueueOfThread call p m = .ok (some out, s'))
    (hpos : 0 < out.valueCount) (hcount : out.valueCount = (chunk size zs m).length)
    (hvalues : StartsWith out.values (chunk size zs m)) (hm : m < p.threadCount)
    (hcontext : s'.ContextHolds call.bufferIndex xs')
    (helements : s'.elementCount = o.buffer.elementCount)
    (hflits : s'.flitBuffer = o.buffer.flitBuffer)
    (hframe : Frame call.bufferIndex o.buffer s') :
    ∃ o', runThread unknown call p o m = .ok o' ∧
      Passing base call.bufferIndex zs p.threadCount stored (m + 1) xs' o' := by
  have hle := hp.threads_le
  have hflit : flitOf (some out) = some out := by
    rw [flitOf, Option.filter_some, if_pos (decide_eq_true hpos)]
  have hrun := runThread_eq unknown hp.address henqueue
    (fun hzero => absurd hzero (Nat.ne_of_gt hp.flushes))
    (fun _ hlast => flit_address_lt flitCount hp.index_lt (by omega))
    (fun _ => ⟨by omega, hle, hp.size_pos, fun hnone => by simp [hflit] at hnone⟩)
  rw [hflit] at hrun
  refine ⟨_, hrun, ?_, ?_, ?_, ?_, fun i hi hi' u => ?_⟩
  · rw [if_pos hp.flushes]
    exact h.emitted.append ⟨rfl, rfl, hcount, hvalues⟩
  · dsimp only [storeResult]
    split
    · exact hcontext
    · exact ⟨hcontext.count, hcontext.lt, hcontext.values⟩
  · dsimp only [storeResult]
    split <;> exact helements.trans h.elements
  · refine (h.frame.trans hframe).trans ?_
    dsimp only [storeResult]
    split
    · exact fun _ _ _ hholds => hholds
    · exact storeFlit_frame s' hp.size_pos (by omega) out.values
  · have hold := h.flits i (by omega) hi' u
    rw [← hflits] at hold
    dsimp only [storeResult]
    split
    · exact hold
    · show StartsWith ((s'.flitBuffer.write _ out.values).read _ u) _
      rw [s'.flitBuffer.read_write_of_ne (by omega)]
      exact hold

/-- A thread that enqueues passes the flit of its `enqueue` on, and if there is none, the one
    that is stored. -/
theorem passing_step (h : Passing base call.bufferIndex zs p.threadCount stored m xs o)
    (hp : p.Passes call size bufferCount flitCount zs stored) (hfirst : p.firstEnqueueThread ≤ m)
    (hm : m < p.threadCount) {front back : List T}
    (hsplit : MultiAccumulatingBuffer.enqueued size (xs ++ newElements (callOfThread call p m))
      (callOfThread call p m).flush = (front, back))
    (hfront : front = chunk size zs m ∧ front ≠ [] ∨
      front = [] ∧ m < stored ∧ p.hasDoubleEnqueue = false) :
    ∃ o', runThread unknown call p o m = .ok o' ∧
      Passing base call.bufferIndex zs p.threadCount stored (m + 1) back o' := by
  have hindex := callOfThread_index call p m
  have hcontext := h.context
  rw [← hindex] at hcontext
  have hlt := hp.index_lt
  rw [← hindex] at hlt
  obtain ⟨out, s', hok, hcount, hvalues, hholds, hother, helements, hflits⟩ :=
    enqueue_eq hp.input_le hlt (callOfThread_count_le hp.count_le p m) hcontext
  rw [hsplit] at hcount hvalues hholds
  rw [hindex] at hholds hother
  have hframe : Frame call.bufferIndex o.buffer s' :=
    frame_of_context hother (fun _ _ => by rw [helements]) hflits
  rcases hfront with ⟨hchunk, hne⟩ | ⟨hnil, hstored, hsingle⟩
  · have hpos : 0 < out.valueCount := by
      rw [hcount]
      exact List.length_pos_iff.mpr hne
    have henqueue := enqueueOfThread_some hp.runs hfirst hok (fun _ => hpos)
    rw [hchunk] at hcount hvalues
    exact passing_enqueued unknown h hp henqueue hpos hcount hvalues hm hholds helements hflits
      hframe
  · have hzero : out.valueCount = 0 := by rw [hcount, hnil]; rfl
    have henqueue := enqueueOfThread_some hp.runs hfirst hok
      (fun hdouble => by rw [hsingle] at hdouble; exact absurd hdouble Bool.false_ne_true)
    have hnone : flitOf (some out) = none := by
      rw [flitOf, Option.filter_some, if_neg (by simp [hzero])]
    exact passing_stored unknown h hp henqueue hnone hstored hholds helements hflits hframe

/-- The threads before the first one that enqueues pass the stored flits on. -/
theorem passing_first (h : Passing base call.bufferIndex zs p.threadCount stored 0 xs o)
    (hp : p.Passes call size bufferCount flitCount zs stored) :
    ∀ m ≤ p.firstEnqueueThread, m ≤ stored →
      ∃ o', (List.range m).foldlM (runThread unknown call p) o = .ok o' ∧
        Passing base call.bufferIndex zs p.threadCount stored m xs o'
  | 0, _, _ => ⟨o, rfl, h⟩
  | m + 1, hm, hstored => by
      obtain ⟨o', hok, hpassing⟩ := passing_first h hp m (Nat.le_of_succ_le hm)
        (Nat.le_of_succ_le hstored)
      obtain ⟨o'', hok', hpassing'⟩ := passing_stored unknown hpassing hp
        (enqueueOfThread_none hp.runs hm) rfl hstored hpassing.context rfl rfl
        (fun _ _ _ hholds => hholds)
      refine ⟨o'', ?_, hpassing'⟩
      rw [List.range_succ, List.foldlM_append, hok, ok_bind]
      simp only [List.foldlM_cons, List.foldlM_nil, hok', ok_bind, pure_eq_ok]

/-- What a call leaves once all its threads have run. -/
theorem Passing.holds (h : Passing base call.bufferIndex zs p.threadCount stored m xs o)
    (hle : size ≤ flitCount * size)
    (helements : base.elementCount.read call.bufferIndex 0 = xs.length) :
    o.buffer.Holds call.bufferIndex xs := by
  have hlt := h.context.lt
  have hdiv : xs.length / size = 0 := Nat.div_eq_of_lt hlt
  refine ⟨by rw [h.elements, helements], by omega, ?_, fun i hi => ?_⟩
  · rw [hdiv, Nat.zero_mul, List.drop_zero]
    exact h.context
  · rw [hdiv] at hi
    exact absurd hi (Nat.not_lt_zero i)

/-- All threads of a call, of which the last one enqueues. -/
theorem passing_single (h : Passing base call.bufferIndex zs p.threadCount stored 0 xs o)
    (hp : p.Passes call size bufferCount flitCount zs stored) (hsingle : p.hasDoubleEnqueue = false)
    (hthreads : p.threadCount = m + 1) (hm : m ≤ stored) {front back : List T}
    (hsplit : MultiAccumulatingBuffer.enqueued size (xs ++ newElements call) call.flush =
      (front, back))
    (hfront : front = chunk size zs m ∧ front ≠ [] ∨ front = [] ∧ m < stored) :
    ∃ o', (List.range p.threadCount).foldlM (runThread unknown call p) o = .ok o' ∧
      Passing base call.bufferIndex zs p.threadCount stored p.threadCount back o' := by
  have hnotdouble : ¬ p.hasDoubleEnqueue = true := by
    rw [hsingle]
    exact Bool.false_ne_true
  have hfirst : p.firstEnqueueThread = m := by
    rw [Plan.firstEnqueueThread, hthreads, if_neg hnotdouble, Nat.add_sub_cancel]
  have hcall : callOfThread call p m = call := if_neg hnotdouble
  obtain ⟨o₁, hok₁, h₁⟩ := passing_first unknown h hp m (Nat.le_of_eq hfirst.symm) hm
  rw [← hcall] at hsplit
  obtain ⟨o₂, hok₂, h₂⟩ := passing_step unknown h₁ hp (Nat.le_of_eq hfirst) (by omega)
    hsplit (hfront.imp_right fun hnil => ⟨hnil.1, hnil.2, hsingle⟩)
  refine ⟨o₂, ?_, ?_⟩
  · rw [hthreads, List.range_succ, List.foldlM_append, hok₁, ok_bind, List.foldlM_cons, hok₂]
    rfl
  · have hm := h₂
    rw [← hthreads] at hm
    exact hm

/-- All threads of a call whose last two enqueue: the first of them fills the last flit, and the
    second one flushes what did not fit. -/
theorem passing_double (h : Passing base call.bufferIndex zs p.threadCount stored 0 xs o)
    (hp : p.Passes call size bufferCount flitCount zs stored) (hdouble : p.hasDoubleEnqueue = true)
    (hthreads : p.threadCount = stored + 2)
    (hlast : xs ++ newElements call = zs.drop (stored * size))
    (hlt : size < (zs.drop (stored * size)).length)
    (hle : (zs.drop (stored * size)).length < 2 * size) :
    ∃ o', (List.range p.threadCount).foldlM (runThread unknown call p) o = .ok o' ∧
      Passing base call.bufferIndex zs p.threadCount stored p.threadCount [] o' := by
  have hfirst : p.firstEnqueueThread = stored := by
    rw [Plan.firstEnqueueThread, hthreads, if_pos hdouble, Nat.add_sub_cancel]
  have hcall₁ : callOfThread call p stored = { call with flush := false } := by
    rw [callOfThread, if_pos hdouble, if_pos hfirst.symm]
  have hcall₂ : callOfThread call p (stored + 1) =
      { call with valueCount := 0, flush := true } := by
    rw [callOfThread, if_pos hdouble, hfirst, if_neg (Nat.succ_ne_self stored)]
  -- What does not fit is less than a flit
  have hrest : ((zs.drop (stored * size)).drop size).length < size := by
    rw [List.length_drop]
    omega
  have hchunk : chunk size zs (stored + 1) = (zs.drop (stored * size)).drop size := by
    rw [chunk, Nat.add_mul, Nat.one_mul, ← List.drop_drop, List.take_of_length_le (by omega)]
  have hsplit₁ : MultiAccumulatingBuffer.enqueued size
      (xs ++ newElements (callOfThread call p stored)) (callOfThread call p stored).flush =
      (chunk size zs stored, (zs.drop (stored * size)).drop size) := by
    rw [hcall₁]
    show MultiAccumulatingBuffer.enqueued size (xs ++ newElements call) false = _
    rw [hlast, MultiAccumulatingBuffer.enqueued, if_pos (by omega)]
    rfl
  have hsplit₂ : MultiAccumulatingBuffer.enqueued size
      ((zs.drop (stored * size)).drop size ++ newElements (callOfThread call p (stored + 1)))
      (callOfThread call p (stored + 1)).flush = (chunk size zs (stored + 1), []) := by
    rw [hcall₂]
    show MultiAccumulatingBuffer.enqueued size (_ ++ []) true = _
    rw [List.append_nil, MultiAccumulatingBuffer.enqueued, if_neg (by omega), if_pos rfl, hchunk]
  have hne₁ : chunk size zs stored ≠ [] := by
    apply List.ne_nil_of_length_pos
    rw [chunk, List.length_take]
    have := hp.size_pos
    omega
  have hne₂ : chunk size zs (stored + 1) ≠ [] := by
    apply List.ne_nil_of_length_pos
    rw [hchunk, List.length_drop]
    omega
  obtain ⟨o₁, hok₁, h₁⟩ := passing_first unknown h hp stored
    (Nat.le_of_eq hfirst.symm) (Nat.le_refl stored)
  obtain ⟨o₂, hok₂, h₂⟩ := passing_step unknown h₁ hp (Nat.le_of_eq hfirst) (by omega)
    hsplit₁ (Or.inl ⟨rfl, hne₁⟩)
  obtain ⟨o₃, hok₃, h₃⟩ := passing_step unknown h₂ hp (by omega) (by omega)
    hsplit₂ (Or.inl ⟨rfl, hne₂⟩)
  refine ⟨o₃, ?_, ?_⟩
  · rw [hthreads, List.range_succ, List.range_succ, List.foldlM_append, List.foldlM_append, hok₁,
      ok_bind, List.foldlM_cons, hok₂, ok_bind, List.foldlM_nil, pure_eq_ok, ok_bind,
      List.foldlM_cons, hok₃]
    rfl
  · have hm := h₃
    rw [show stored + 1 + 1 = p.threadCount from hthreads.symm] at hm
    exact hm

end Passing

/-! ### A whole call -/

omit [Inhabited T] in
theorem chunk_take {n i : Nat} (h : (i + 1) * size ≤ n) (xs : List T) :
    chunk size (xs.take n) i = chunk size xs i := by
  rw [Nat.add_mul, Nat.one_mul] at h
  rw [chunk, chunk, List.drop_take, List.take_take, Nat.min_eq_left (by omega)]

theorem flitsOf_eq {n m : Nat} (hlt : m * size < n) (hle : n ≤ (m + 1) * size) :
    flitsOf size n = m + 1 := by
  have hsize : (m + 1) * size = m * size + size := by rw [Nat.add_mul, Nat.one_mul]
  have hnext : (m + 1 + 1) * size = (m + 1) * size + size := by rw [Nat.add_mul, Nat.one_mul]
  exact Nat.div_eq_of_lt_le (by omega) (by omega)

theorem flitsOf_zero (hsize : 0 < size) : flitsOf size 0 = 0 := Nat.div_eq_of_lt (by omega)

theorem flitsOf_mul (hsize : 0 < size) (m : Nat) : flitsOf size (m * size) = m := by
  cases m with
  | zero => rw [Nat.zero_mul, flitsOf_zero hsize]
  | succ m =>
      exact flitsOf_eq (Nat.mul_lt_mul_of_pos_right (Nat.lt_succ_self m) hsize) (Nat.le_refl _)

section Calls

variable (unknown : Vector T size) {call : AccumulatingCall T inputSize} {held : List T}
  {s : MultiAccumulatingBuffer T size bufferCount flitCount}

/-- What a call leaves and passes to the callback. -/
structure CallResult (s : MultiAccumulatingBuffer T size bufferCount flitCount)
    (call : AccumulatingCall T inputSize) (held : List T)
    (o : Outcome T size bufferCount flitCount) : Prop where
  holds : o.buffer.Holds call.bufferIndex
    (accumulated size flitCount (held ++ newElements call) call.flush).2
  frame : Frame call.bufferIndex s o.buffer
  emitted : Emitted (accumulated size flitCount (held ++ newElements call) call.flush).1
    (flitsOf size (accumulated size flitCount (held ++ newElements call) call.flush).1.length)
    (flitsOf size (accumulated size flitCount (held ++ newElements call) call.flush).1.length)
    o.callbacks

/-- The buffer once a call has counted its elements. -/
def counted (s : MultiAccumulatingBuffer T size bufferCount flitCount)
    (call : AccumulatingCall T inputSize) (count : Nat) :
    MultiAccumulatingBuffer T size bufferCount flitCount :=
  { s with elementCount := s.elementCount.write call.bufferIndex count }

theorem counted_frame (s : MultiAccumulatingBuffer T size bufferCount flitCount)
    (call : AccumulatingCall T inputSize) (count : Nat) :
    Frame call.bufferIndex s (s.counted call count) :=
  frame_of_context (fun _ _ _ h => ⟨h.count, h.lt, h.values⟩)
    (fun _ hne => s.elementCount.read_write_of_ne (Ne.symm hne) _ _) rfl

omit [Inhabited T] in
/-- The elements of the last flit, before and after the new ones are appended. -/
theorem drop_append_newElements (size : Nat) (held : List T) (call : AccumulatingCall T inputSize) :
    (held ++ newElements call).drop (held.length / size * size) =
      held.drop (held.length / size * size) ++ newElements call :=
  List.drop_append_of_le_length (Nat.div_mul_le_self held.length size)

omit [Inhabited T] in
/-- A call that passes nothing to the callback keeps all elements; if it flushes, there are none. -/
theorem accumulated_quiet {xs : List T} {flush : Bool} (hmulti : 0 < flitCount * size)
    (hquiet : (accumulated size flitCount xs flush).1 = []) :
    (accumulated size flitCount xs flush).2 = xs ∧ xs.length < flitCount * size ∧
      (flush = true → xs = []) := by
  unfold accumulated at hquiet ⊢
  cases flush with
  | true =>
      have hnil : xs = [] := hquiet
      subst hnil
      exact ⟨rfl, hmulti, fun _ => rfl⟩
  | false =>
      rw [if_neg Bool.false_ne_true] at hquiet ⊢
      by_cases hfull : flitCount * size ≤ xs.length
      · rw [if_pos hfull] at hquiet
        have hzero := congrArg List.length hquiet
        dsimp only at hzero
        rw [List.length_take, List.length_nil] at hzero
        omega
      · rw [if_neg hfull]
        exact ⟨rfl, by omega, fun hfalse => absurd hfalse Bool.false_ne_true⟩

omit [Inhabited T] in
/-- `enqueue` returns nothing when the elements do not fill a flit and there is nothing to flush. -/
theorem enqueued_quiet {xs : List T} {flush : Bool} (hlt : xs.length < size)
    (hflush : flush = true → xs = []) :
    MultiAccumulatingBuffer.enqueued size xs flush = ([], xs) := by
  rw [MultiAccumulatingBuffer.enqueued, if_neg (Nat.not_le.mpr hlt)]
  cases flush with
  | true => rw [hflush rfl]; rfl
  | false => rfl

/-- New elements that do not fill the last flit. -/
theorem Holds.append_partial {b : Nat} {new : List T}
    {s s' : MultiAccumulatingBuffer T size bufferCount flitCount} (h : s.Holds b held)
    (hlt : held.length % size + new.length < size)
    (hroom : (held ++ new).length < flitCount * size)
    (helements : s'.elementCount.read b 0 = (held ++ new).length)
    (hcontext : s'.ContextHolds b ((held ++ new).drop (held.length / size * size)))
    (hflits : s'.flitBuffer = s.flitBuffer) : s'.Holds b (held ++ new) := by
  have hdiv : (held ++ new).length / size = held.length / size := by
    have hdivmod := Nat.div_add_mod held.length size
    have hlen : (held ++ new).length =
        size * (held.length / size) + (held.length % size + new.length) := by
      rw [List.length_append]
      omega
    rw [hlen, Nat.mul_add_div (by omega), Nat.div_eq_of_lt hlt, Nat.add_zero]
  refine ⟨helements, hroom, ?_, fun i hi u => ?_⟩
  · rw [hdiv]
    exact hcontext
  · rw [hdiv] at hi
    rw [hflits, chunk_append (chunk_eq_of_div hi)]
    exact h.stored i hi u

/-- New elements that fill the last flit, which is then stored. -/
theorem Holds.append_full {b : Nat} {new : List T}
    {s s' : MultiAccumulatingBuffer T size bufferCount flitCount} (h : s.Holds b held)
    (hfull : size ≤ held.length % size + new.length) (hnew : new.length ≤ size)
    (hroom : (held ++ new).length < flitCount * size)
    (helements : s'.elementCount.read b 0 = (held ++ new).length)
    (hcontext : s'.ContextHolds b
      (((held ++ new).drop (held.length / size * size)).drop size))
    (hstored : ∀ u, StartsWith
      (s'.flitBuffer.read (b * (flitCount - 1) + held.length / size) u)
      (chunk size (held ++ new) (held.length / size)))
    (hflits : ∀ i < held.length / size, ∀ u,
      s'.flitBuffer.read (b * (flitCount - 1) + i) u =
        s.flitBuffer.read (b * (flitCount - 1) + i) u) : s'.Holds b (held ++ new) := by
  have hlt := hcontext.lt
  have hsize : 0 < size := by omega
  have hmod := Nat.mod_lt held.length hsize
  have hdiv : (held ++ new).length / size = held.length / size + 1 := by
    have hdivmod := Nat.div_add_mod held.length size
    have hlen : (held ++ new).length =
        size * (held.length / size + 1) + (held.length % size + new.length - size) := by
      have hnext : size * (held.length / size + 1) = size * (held.length / size) + size :=
        Nat.mul_succ _ _
      rw [List.length_append]
      omega
    have hrest : held.length % size + new.length - size < size := by omega
    rw [hlen, Nat.mul_add_div hsize, Nat.div_eq_of_lt hrest, Nat.add_zero]
  refine ⟨helements, hroom, ?_, fun i hi u => ?_⟩
  · rw [hdiv, Nat.add_mul, Nat.one_mul, ← List.drop_drop]
    exact hcontext
  · rw [hdiv] at hi
    by_cases hlast : i = held.length / size
    · subst hlast
      exact hstored u
    · have hi : i < held.length / size := by omega
      rw [hflits i hi u, chunk_append (chunk_eq_of_div hi)]
      exact h.stored i hi u

/-- A call that passes nothing to the callback: its thread enqueues the new elements, and stores
    the flit that is then full. -/
theorem quiet_call (hsizes : Sizes size flitCount inputSize) (h : s.Holds call.bufferIndex held)
    (haccepts : Accepts bufferCount flitCount size held call)
    (hquiet : (accumulated size flitCount (held ++ newElements call) call.flush).1 = []) :
    ∃ o, enqueueWithCallback unknown s call = .ok o ∧ CallResult s call held o := by
  have hsize := hsizes.size_pos
  have hle := hsizes.le_mul
  have hnew := length_newElements haccepts.count_le
  have hnewle : (newElements call).length ≤ size := by
    rw [hnew]
    exact haccepts.count_le.trans hsizes.input_le
  have hdivmod := Nat.div_add_mod' held.length size
  have hmodlt := Nat.mod_lt held.length hsize
  obtain ⟨hback, hroom, hflush⟩ := accumulated_quiet (by omega) hquiet
  have hsplit := drop_append_newElements size held call
  have hrest : ((held ++ newElements call).drop (held.length / size * size)).length =
      held.length % size + (newElements call).length := by
    rw [List.length_drop, List.length_append]
    omega
  let p := planFor size flitCount held call
  have hzero : p.numElementsToFlush = 0 := congrArg List.length hquiet
  have hthreads : p.threadCount = 1 := if_pos hzero
  have hsingle : p.hasDoubleEnqueue = false := by
    show (call.flush && _) = false
    cases hf : call.flush with
    | true =>
        have hnil := congrArg List.length (hflush hf)
        rw [List.length_append, List.length_nil] at hnil
        rw [decide_eq_false (by omega), Bool.and_false]
    | false => rfl
  have hnotdouble : p.hasDoubleEnqueue = true → False := by
    rw [hsingle]
    exact Bool.false_ne_true
  have hruns : p.Runs size flitCount inputSize :=
    ⟨by omega, by have := hsizes.one_le_maxThreadCount; omega,
      fun hdouble => (hnotdouble hdouble).elim⟩
  -- The only thread enqueues
  let s₁ := s.counted call (held ++ newElements call).length
  have hcontext : s₁.ContextHolds call.bufferIndex (held.drop (held.length / size * size)) :=
    ⟨h.context.count, h.context.lt, h.context.values⟩
  obtain ⟨out, s', hok, hcount, hvalues, hholds, hother, helements, hflits⟩ :=
    enqueue_eq hsizes.input_le haccepts.index_lt haccepts.count_le hcontext
  rw [← hsplit] at hcount hvalues hholds
  have hframe : Frame call.bufferIndex s s' := (counted_frame s call _).trans
    (frame_of_context hother (fun _ _ => by rw [helements]) hflits)
  have helements : s'.elementCount.read call.bufferIndex 0 = (held ++ newElements call).length := by
    rw [helements]
    exact s.elementCount.read_write_self haccepts.index_lt _ _
  have hcall : callOfThread call p 0 = call := if_neg hnotdouble
  have hfirst : p.firstEnqueueThread ≤ 0 := by
    rw [Plan.firstEnqueueThread, hthreads, if_neg hnotdouble]
  rw [← hcall] at hok
  have henqueue := enqueueOfThread_some hruns hfirst hok (fun hdouble => (hnotdouble hdouble).elim)
  have haddr : flitAddress flitCount call.bufferIndex p 0 =
      call.bufferIndex * (flitCount - 1) + held.length / size := by
    rw [flitAddress, if_pos hzero, Nat.add_zero]
    rfl
  have hrange : ∀ o : Outcome T size bufferCount flitCount,
      runThread unknown call p { buffer := s₁ } 0 = .ok o →
        enqueueWithCallback unknown s call = .ok o := by
    intro o hrun
    rw [enqueueWithCallback, plan_eq hsizes h haccepts, hback]
    show (List.range p.threadCount).foldlM (runThread unknown call p) { buffer := s₁ } = _
    rw [hthreads, List.range_one, List.foldlM_cons, hrun, ok_bind]
    rfl
  have hemitted : Emitted (accumulated size flitCount (held ++ newElements call) call.flush).1
      (flitsOf size (accumulated size flitCount (held ++ newElements call) call.flush).1.length)
      (flitsOf size (accumulated size flitCount (held ++ newElements call) call.flush).1.length)
      ([] : List (FlitCallback T size)) := by
    rw [hquiet, List.length_nil, flitsOf_zero hsize]
    exact ⟨rfl, fun i hi => absurd hi (Nat.not_lt_zero i)⟩
  have hone : ¬ 0 < p.numElementsToFlush := by omega
  by_cases hfull : size ≤ held.length % size + (newElements call).length
  · -- The last flit is full, and is not the last one of the buffer
    have henq : MultiAccumulatingBuffer.enqueued size
        ((held ++ newElements call).drop (held.length / size * size)) call.flush =
        (chunk size (held ++ newElements call) (held.length / size),
          ((held ++ newElements call).drop (held.length / size * size)).drop size) := by
      rw [MultiAccumulatingBuffer.enqueued, if_pos (by omega)]
      rfl
    have hlt : held.length / size < flitCount - 1 := by
      have hlt : (held.length / size + 1) * size < flitCount * size := by
        rw [Nat.add_mul, Nat.one_mul]
        rw [List.length_append] at hroom
        omega
      have := Nat.lt_of_mul_lt_mul_right hlt
      omega
    rw [henq] at hcount hvalues hholds
    have hpos : 0 < out.valueCount := by
      rw [hcount]
      show 0 < (chunk size _ _).length
      rw [chunk, List.length_take, hrest]
      omega
    have hflit : flitOf (some out) = some out := by
      rw [flitOf, Option.filter_some, if_pos (decide_eq_true hpos)]
    have hdepth := flit_address_lt flitCount haccepts.index_lt hlt
    have hrun := runThread_eq unknown (o := { buffer := s₁ }) haddr henqueue
      (fun _ => rfl) (fun _ _ => hdepth) (fun hpos => absurd hpos hone)
    have hstore : s'.storeResult (call.bufferIndex * (flitCount - 1) + held.length / size) 0
        (some out) = s'.storeFlit
          (call.bufferIndex * (flitCount - 1) + held.length / size) out.values :=
      if_neg (Nat.ne_of_lt (Nat.zero_lt_of_lt hlt))
    rw [hflit, hstore, if_neg hone] at hrun
    refine ⟨_, hrange _ hrun, ?_, hframe.trans (storeFlit_frame s' hsize hlt _), hemitted⟩
    rw [hback]
    refine h.append_full hfull hnewle hroom helements
      ⟨hholds.count, hholds.lt, hholds.values⟩ (fun u => ?_) (fun i hi u => ?_)
    · show StartsWith ((s'.flitBuffer.write _ out.values).read _ u) _
      rw [s'.flitBuffer.read_write_self hdepth]
      exact hvalues
    · show (s'.flitBuffer.write _ out.values).read _ u = _
      rw [s'.flitBuffer.read_write_of_ne (by omega), hflits]
      rfl
  · have henq : MultiAccumulatingBuffer.enqueued size
        ((held ++ newElements call).drop (held.length / size * size)) call.flush =
        ([], (held ++ newElements call).drop (held.length / size * size)) :=
      enqueued_quiet (by omega) (fun hf => by rw [hflush hf, List.drop_nil])
    rw [henq] at hcount hholds
    have hflit : flitOf (some out) = none := by
      rw [flitOf, Option.filter_some, if_neg (by rw [hcount]; simp)]
    have hrun := runThread_eq unknown (o := { buffer := s₁ }) haddr henqueue
      (fun _ => rfl) (fun hsome => by simp [hflit] at hsome) (fun hpos => absurd hpos hone)
    rw [hflit, if_neg hone] at hrun
    refine ⟨_, hrange _ hrun, ?_, hframe, hemitted⟩
    rw [hback]
    exact h.append_partial (by omega) hroom helements hholds hflits

/-- The start of a call that passes `front` to the callback. -/
theorem passing_start (h : s.Holds call.bufferIndex held) (count n : Nat) (front : List T)
    (hfront : ∀ i < held.length / size, chunk size front i = chunk size held i) :
    Passing (s.counted call n) call.bufferIndex front count (held.length / size) 0
      (held.drop (held.length / size * size)) { buffer := s.counted call n } where
  emitted := ⟨rfl, fun i hi => absurd hi (Nat.not_lt_zero i)⟩
  context := ⟨h.context.count, h.context.lt, h.context.values⟩
  elements := rfl
  frame := fun _ _ _ hholds => hholds
  flits := fun i _ hi u => by
    rw [hfront i hi]
    exact h.stored i hi u

/-- A call that passes elements to the callback, once its threads have run. -/
theorem passing_result (hsizes : Sizes size flitCount inputSize)
    (h : s.Holds call.bufferIndex held) (haccepts : Accepts bufferCount flitCount size held call)
    {front back : List T}
    (hsplit : accumulated size flitCount (held ++ newElements call) call.flush = (front, back))
    {p : Plan} (hplan : planFor size flitCount held call = p)
    (hthreads : p.threadCount = flitsOf size front.length)
    {o : Outcome T size bufferCount flitCount}
    (hrun : (List.range p.threadCount).foldlM (runThread unknown call p)
      { buffer := s.counted call back.length } = .ok o)
    (hpassing : Passing (s.counted call back.length) call.bufferIndex front p.threadCount
      (held.length / size) p.threadCount back o) :
    enqueueWithCallback unknown s call = .ok o ∧ CallResult s call held o := by
  refine ⟨?_, ?_, (counted_frame s call _).trans hpassing.frame, ?_⟩
  · rw [enqueueWithCallback, plan_eq hsizes h haccepts, hsplit, hplan]
    exact hrun
  · rw [hsplit]
    exact hpassing.holds hsizes.le_mul
      (s.elementCount.read_write_self haccepts.index_lt back.length 0)
  · have hemitted := hpassing.emitted
    rw [hthreads] at hemitted
    rw [hsplit]
    exact hemitted

/-- The plan of a call that passes `front` to the callback. -/
theorem planFor_passes (hsizes : Sizes size flitCount inputSize)
    (h : s.Holds call.bufferIndex held) (haccepts : Accepts bufferCount flitCount size held call)
    {front back : List T}
    (hsplit : accumulated size flitCount (held ++ newElements call) call.flush = (front, back))
    (hne : front ≠ []) (hfull : held.length / size * size ≤ front.length)
    (hdouble : (planFor size flitCount held call).hasDoubleEnqueue = true →
      2 ≤ flitsOf size front.length) :
    (planFor size flitCount held call).threadCount = flitsOf size front.length ∧
      (planFor size flitCount held call).Passes call size bufferCount flitCount front
        (held.length / size) := by
  have hpos := List.length_pos_iff.mpr hne
  have hlen := length_newElements haccepts.count_le
  have hthreads : (planFor size flitCount held call).threadCount = flitsOf size front.length := by
    rw [planFor, hsplit]
    exact if_neg (Nat.ne_of_gt hpos)
  have hflush : front.length ≤ flitCount * size := by
    have hle := @length_accumulated_le T size flitCount (held ++ newElements call) call.flush
      (fun hflush => by
        have := haccepts.fits hflush
        rw [List.length_append]
        omega)
    rw [hsplit] at hle
    exact hle
  have hone : 0 < flitsOf size front.length :=
    Nat.div_pos (by omega) hsizes.size_pos
  refine ⟨hthreads, ⟨?_, ?_, ?_⟩, ?_, ?_, hsizes.size_pos, hsizes.input_le, haccepts.index_lt,
    haccepts.count_le, h.div_lt hsizes.size_pos, hfull⟩
  · rw [hthreads]
    exact hone
  · rw [hthreads]
    exact hsizes.flitsOf_le_max hflush
  · intro hd
    rw [hthreads]
    exact hdouble hd
  · rw [planFor, hsplit]
    exact hpos
  · rw [hthreads]
    exact hsizes.flitsOf_le hflush

/-- A call without flush that finds enough elements: all flits are full, and the last one is not
    stored. -/
theorem full_call (hsizes : Sizes size flitCount inputSize)
    (h : s.Holds call.bufferIndex held) (haccepts : Accepts bufferCount flitCount size held call)
    (hflush : call.flush = false)
    (hfull : flitCount * size ≤ (held ++ newElements call).length) :
    ∃ o, enqueueWithCallback unknown s call = .ok o ∧ CallResult s call held o := by
  have hsize := hsizes.size_pos
  have hflits := hsizes.flits_pos
  have hnew := length_newElements haccepts.count_le
  have hcount := haccepts.count_le
  have hinput := hsizes.input_le
  have hheld := h.lt
  have hlen : (held ++ newElements call).length = held.length + (newElements call).length :=
    List.length_append
  have hsplit : accumulated size flitCount (held ++ newElements call) call.flush =
      ((held ++ newElements call).take (flitCount * size),
        (held ++ newElements call).drop (flitCount * size)) := by
    rw [accumulated, hflush, if_neg Bool.false_ne_true, if_pos hfull]
  have hfront : ((held ++ newElements call).take (flitCount * size)).length = flitCount * size := by
    rw [List.length_take, Nat.min_eq_left hfull]
  have hthreads : flitsOf size ((held ++ newElements call).take (flitCount * size)).length =
      flitCount := by
    rw [hfront, flitsOf_mul hsize]
  -- All flits but the last one are stored
  have hmulti : flitCount * size = (flitCount - 1) * size + size := by
    rw [← Nat.succ_mul, Nat.succ_eq_add_one, Nat.sub_add_cancel hflits]
  have hdiv : held.length / size = flitCount - 1 :=
    Nat.div_eq_of_lt_le (by omega) (by rw [Nat.succ_mul]; omega)
  have hchunk : ∀ i < flitCount, chunk size ((held ++ newElements call).take (flitCount * size)) i =
      chunk size (held ++ newElements call) i :=
    fun i hi => chunk_take (Nat.mul_le_mul_right size hi) _
  have hsingle : (planFor size flitCount held call).hasDoubleEnqueue = false := by
    show (call.flush && _) = false
    rw [hflush, Bool.false_and]
  obtain ⟨hcountp, hpasses⟩ := planFor_passes hsizes h haccepts hsplit
    (List.ne_nil_of_length_pos (by omega)) (by rw [hdiv]; omega)
    (fun hd => by rw [hsingle] at hd; exact absurd hd Bool.false_ne_true)
  have hstart := passing_start h (planFor size flitCount held call).threadCount
    ((held ++ newElements call).drop (flitCount * size)).length _
    (fun i hi => by
      rw [hchunk i (by omega)]
      exact chunk_append (chunk_eq_of_div hi) _)
  have hlast : MultiAccumulatingBuffer.enqueued size
      (held.drop (held.length / size * size) ++ newElements call) call.flush =
      (chunk size ((held ++ newElements call).take (flitCount * size)) (flitCount - 1),
        (held ++ newElements call).drop (flitCount * size)) := by
    rw [← drop_append_newElements size, MultiAccumulatingBuffer.enqueued, hdiv,
      if_pos (by rw [List.length_drop]; omega), hchunk (flitCount - 1) (by omega), List.drop_drop,
      ← hmulti]
    rfl
  obtain ⟨o, hrun, hpassing⟩ := passing_single unknown hstart hpasses hsingle
    (m := flitCount - 1) (by omega) (by omega) hlast
    (Or.inl ⟨rfl, List.ne_nil_of_length_pos (by
      rw [length_chunk (by rw [Nat.sub_add_cancel hflits]; omega)]
      exact hsize)⟩)
  exact ⟨o, passing_result unknown hsizes h haccepts hsplit rfl hcountp hrun hpassing⟩

/-- A flush: the last thread outputs what is in the last flit, or else the last flit that is
    stored, and when the new elements are in two flits, the last two threads enqueue. -/
theorem flush_call (hsizes : Sizes size flitCount inputSize)
    (h : s.Holds call.bufferIndex held) (haccepts : Accepts bufferCount flitCount size held call)
    (hflush : call.flush = true) (hne : held ++ newElements call ≠ []) :
    ∃ o, enqueueWithCallback unknown s call = .ok o ∧ CallResult s call held o := by
  have hsize := hsizes.size_pos
  have hnew := length_newElements haccepts.count_le
  have hcount := haccepts.count_le
  have hinput := hsizes.input_le
  have hdivmod := Nat.div_add_mod' held.length size
  have hmodlt := Nat.mod_lt held.length hsize
  have hlen : (held ++ newElements call).length = held.length + (newElements call).length :=
    List.length_append
  have hpos := List.length_pos_iff.mpr hne
  have hsplit : accumulated size flitCount (held ++ newElements call) call.flush =
      (held ++ newElements call, []) := by
    rw [accumulated, hflush, if_pos rfl]
  have hdrop := drop_append_newElements size held call
  have hrest : ((held ++ newElements call).drop (held.length / size * size)).length =
      held.length % size + (newElements call).length := by
    rw [List.length_drop, hlen]
    omega
  have htotal : (held ++ newElements call).length =
      held.length / size * size + (held.length % size + (newElements call).length) := by omega
  have hstart := passing_start h (planFor size flitCount held call).threadCount 0
    (held ++ newElements call) (fun i hi => chunk_append (chunk_eq_of_div hi) _)
  by_cases hdouble : held.length % size + call.valueCount > size
  · -- The new elements are in two flits
    have hd : (planFor size flitCount held call).hasDoubleEnqueue = true := by
      show (call.flush && _) = true
      rw [hflush, decide_eq_true hdouble, Bool.and_self]
    have hthreads : flitsOf size (held ++ newElements call).length = held.length / size + 2 := by
      refine flitsOf_eq ?_ ?_
      · rw [Nat.add_mul, Nat.one_mul]
        omega
      · rw [Nat.add_mul, Nat.add_mul, Nat.one_mul]
        omega
    obtain ⟨hcountp, hpasses⟩ := planFor_passes hsizes h haccepts hsplit hne (by omega)
      (fun _ => by rw [hthreads]; exact Nat.le_add_left 2 _)
    obtain ⟨o, hrun, hpassing⟩ := passing_double unknown hstart hpasses hd
      (by omega) hdrop.symm (by omega) (by omega)
    exact ⟨o, passing_result unknown hsizes h haccepts hsplit rfl hcountp hrun hpassing⟩
  · have hsingle : (planFor size flitCount held call).hasDoubleEnqueue = false := by
      show (call.flush && _) = false
      rw [decide_eq_false hdouble, Bool.and_false]
    obtain ⟨hcountp, hpasses⟩ := planFor_passes hsizes h haccepts hsplit hne (by omega)
      (fun hd => by rw [hsingle] at hd; exact absurd hd Bool.false_ne_true)
    by_cases hempty : held.length % size + (newElements call).length = 0
    · -- The last flit is empty: the one before it is output
      have hqpos : 0 < held.length / size := by
        by_contra hzero
        rw [Nat.eq_zero_of_not_pos hzero] at htotal
        omega
      have hthreads : flitsOf size (held ++ newElements call).length = held.length / size := by
        rw [htotal, hempty, Nat.add_zero, flitsOf_mul hsize]
      have hnil : held.drop (held.length / size * size) ++ newElements call = [] := by
        rw [← hdrop]
        exact List.eq_nil_of_length_eq_zero (hrest.trans hempty)
      have hlast : MultiAccumulatingBuffer.enqueued size
          (held.drop (held.length / size * size) ++ newElements call) call.flush = ([], []) := by
        rw [hnil]
        exact enqueued_quiet hsize (fun _ => rfl)
      obtain ⟨o, hrun, hpassing⟩ := passing_single unknown hstart hpasses hsingle
        (m := held.length / size - 1) (by omega) (by omega) hlast (Or.inr ⟨rfl, by omega⟩)
      exact ⟨o, passing_result unknown hsizes h haccepts hsplit rfl hcountp hrun hpassing⟩
    · -- The last flit has elements
      have hthreads : flitsOf size (held ++ newElements call).length = held.length / size + 1 := by
        refine flitsOf_eq (by omega) ?_
        rw [Nat.add_mul, Nat.one_mul]
        omega
      have hall : chunk size (held ++ newElements call) (held.length / size) =
          (held ++ newElements call).drop (held.length / size * size) :=
        List.take_of_length_le (by omega)
      have hlast : MultiAccumulatingBuffer.enqueued size
          (held.drop (held.length / size * size) ++ newElements call) call.flush =
          (chunk size (held ++ newElements call) (held.length / size), []) := by
        rw [← hdrop, hall, hflush, MultiAccumulatingBuffer.enqueued]
        have hle : ((held ++ newElements call).drop (held.length / size * size)).length ≤ size := by
          omega
        by_cases hexact :
            size ≤ ((held ++ newElements call).drop (held.length / size * size)).length
        · rw [if_pos hexact, List.take_of_length_le hle, List.drop_of_length_le hle]
        · rw [if_neg hexact, if_pos rfl]
      obtain ⟨o, hrun, hpassing⟩ := passing_single unknown hstart hpasses hsingle
        (m := held.length / size) (by omega) (Nat.le_refl _) hlast
        (Or.inl ⟨rfl, List.ne_nil_of_length_pos (by rw [hall]; omega)⟩)
      exact ⟨o, passing_result unknown hsizes h haccepts hsplit rfl hcountp hrun hpassing⟩

/-- `enqueue_with_callback` passes the elements of `accumulated` to the callback, and the others
    stay. -/
theorem enqueueWithCallback_eq (hsizes : Sizes size flitCount inputSize)
    (h : s.Holds call.bufferIndex held)
    (haccepts : Accepts bufferCount flitCount size held call) :
    ∃ o, enqueueWithCallback unknown s call = .ok o ∧ CallResult s call held o := by
  by_cases hfront : (accumulated size flitCount (held ++ newElements call) call.flush).1 = []
  · exact quiet_call unknown hsizes h haccepts hfront
  · cases hflush : call.flush with
    | true =>
        rw [hflush] at hfront
        exact flush_call unknown hsizes h haccepts hflush hfront
    | false =>
        rw [hflush, accumulated, if_neg Bool.false_ne_true] at hfront
        by_cases hfull : flitCount * size ≤ (held ++ newElements call).length
        · exact full_call unknown hsizes h haccepts hflush hfull
        · rw [if_neg hfull] at hfront
          exact absurd rfl hfront

end Calls

/-! ### The elements that a call outputs -/

/-- The valid elements of a flit. -/
def FlitCallback.elements (callback : FlitCallback T size) : List T :=
  callback.data.toList.take callback.valueCount

omit [Inhabited T] in
/-- The valid elements of an array that starts with a list. -/
theorem StartsWith.toList_take {v : Vector T size} {xs : List T} (h : StartsWith v xs) :
    v.toList.take xs.length = xs := by
  apply List.ext_getElem?
  intro j
  by_cases hj : j < xs.length
  · rw [List.getElem?_take_of_lt hj, Vector.getElem?_toList]
    exact h j hj
  · rw [List.getElem?_eq_none (by rw [List.length_take]; omega), List.getElem?_eq_none (by omega)]

omit [Inhabited T] in
theorem length_chunk_le (size : Nat) (xs : List T) (i : Nat) : (chunk size xs i).length ≤ size :=
  List.length_take_le _ _

omit [Inhabited T] in
theorem IsFlit.elements_eq {zs : List T} {count i : Nat} {callback : FlitCallback T size}
    (h : IsFlit zs count i callback) : FlitCallback.elements callback = chunk size zs i := by
  rw [FlitCallback.elements, h.valueCount]
  exact h.data.toList_take

omit [Inhabited T] in
/-- The first flits have the first elements. -/
theorem Emitted.elements_eq {zs : List T} {count : Nat} {callbacks : List (FlitCallback T size)} :
    ∀ {emitted : Nat}, Emitted zs count emitted callbacks →
      callbacks.flatMap FlitCallback.elements = zs.take (emitted * size) := by
  induction callbacks using List.reverseRecOn with
  | nil =>
      intro emitted h
      have hzero : emitted = 0 := h.length.symm
      rw [hzero, Nat.zero_mul]
      rfl
  | append_singleton callbacks callback ih =>
      intro emitted h
      have hlen := h.length
      rw [List.length_append, List.length_singleton] at hlen
      have hinit : Emitted zs count callbacks.length callbacks := by
        refine ⟨rfl, fun i hi => ?_⟩
        have hflit := h.flit i (by rw [List.length_append]; omega)
        rw [List.getElem_append_left hi] at hflit
        exact hflit
      have hlast := h.flit callbacks.length (by
        rw [List.length_append, List.length_singleton]
        omega)
      rw [List.getElem_append_right (Nat.le_refl _)] at hlast
      simp only [Nat.sub_self, List.getElem_singleton] at hlast
      rw [List.flatMap_append, ih hinit, List.flatMap_singleton, hlast.elements_eq, chunk, ← hlen,
        Nat.add_mul, Nat.one_mul, List.take_add]

omit [Inhabited T] in
theorem accumulated_append (xs : List T) (flush : Bool) :
    (accumulated size flitCount xs flush).1 ++ (accumulated size flitCount xs flush).2 = xs := by
  unfold accumulated
  cases flush with
  | true => exact List.append_nil xs
  | false =>
      rw [if_neg Bool.false_ne_true]
      split
      · exact List.take_append_drop _ xs
      · rfl

/-- What the calls of the callback are for the elements that a call finds and appends. -/
structure CallbacksFor (size flitCount : Nat) (elements : List T) (flushed : Bool)
    (callbacks : List (FlitCallback T size)) : Prop where
  /-- A flush outputs everything. -/
  flush : flushed = true → callbacks.flatMap FlitCallback.elements = elements
  /-- Without flush, enough elements are output as full flits. -/
  full : flushed = false → flitCount * size ≤ elements.length →
    callbacks.length = flitCount ∧ (∀ c ∈ callbacks, c.valueCount = size) ∧
      callbacks.flatMap FlitCallback.elements = elements.take (flitCount * size)
  /-- Without flush, nothing is output before there are enough elements. -/
  quiet : flushed = false → elements.length < flitCount * size → callbacks = []
  /-- The flits are numbered, and only the last one may be partial. -/
  numbered : ∀ (i : Nat) (h : i < callbacks.length), callbacks[i].index = i ∧
    callbacks[i].count = callbacks.length ∧ 0 < callbacks[i].valueCount ∧
    callbacks[i].valueCount ≤ size ∧ (i + 1 < callbacks.length → callbacks[i].valueCount = size)

omit [Inhabited T] in
/-- A flit of a list that has as many flits as it needs. -/
theorem length_chunk_of_lt {zs : List T} {i : Nat} (hsize : 0 < size)
    (hi : i < flitsOf size zs.length) :
    0 < (chunk size zs i).length ∧
      (i + 1 < flitsOf size zs.length → (chunk size zs i).length = size) := by
  have hlt : ∀ j, j < flitsOf size zs.length → j * size < zs.length := by
    intro j hj
    rw [flitsOf, Nat.lt_iff_add_one_le, Nat.le_div_iff_mul_le hsize, Nat.add_mul, Nat.one_mul] at hj
    omega
  constructor
  · have hfirst := hlt i hi
    rw [chunk, List.length_take, List.length_drop]
    omega
  · intro hnext
    exact length_chunk (Nat.le_of_lt (hlt (i + 1) hnext))

theorem le_flitsOf_mul (hsize : 0 < size) (n : Nat) : n ≤ flitsOf size n * size := by
  have hdivmod := Nat.div_add_mod' (n + size - 1) size
  have hmod := Nat.mod_lt (n + size - 1) hsize
  rw [flitsOf]
  omega

omit [Inhabited T] in
theorem callbacksFor_of_emitted (hsize : 0 < size) {xs : List T} {flush : Bool}
    {callbacks : List (FlitCallback T size)}
    (h : Emitted (accumulated size flitCount xs flush).1
      (flitsOf size (accumulated size flitCount xs flush).1.length)
      (flitsOf size (accumulated size flitCount xs flush).1.length) callbacks) :
    CallbacksFor size flitCount xs flush callbacks := by
  have helements := h.elements_eq
  have hlength := h.length
  rw [List.take_of_length_le (le_flitsOf_mul hsize _)] at helements
  refine ⟨fun hflush => ?_, fun hflush hfull => ?_, fun hflush hlt => ?_, fun i hi => ?_⟩
  · rw [helements, accumulated, if_pos hflush]
  · have hsplit : (accumulated size flitCount xs flush).1 = xs.take (flitCount * size) := by
      rw [accumulated, hflush, if_neg Bool.false_ne_true, if_pos hfull]
    have htake : (xs.take (flitCount * size)).length = flitCount * size := by
      rw [List.length_take, Nat.min_eq_left hfull]
    have hflits : callbacks.length = flitCount := by
      rw [hlength, hsplit, htake, flitsOf_mul hsize]
    refine ⟨hflits, fun c hc => ?_, by rw [helements, hsplit]⟩
    obtain ⟨i, hi, rfl⟩ := List.getElem_of_mem hc
    rw [(h.flit i hi).valueCount, hsplit, length_chunk]
    rw [htake]
    exact Nat.mul_le_mul_right size (by omega)
  · have hnil : (accumulated size flitCount xs flush).1 = [] := by
      rw [accumulated, hflush, if_neg Bool.false_ne_true, if_neg (Nat.not_le.mpr hlt)]
    rw [hnil, List.length_nil, flitsOf_zero hsize] at hlength
    exact List.eq_nil_of_length_eq_zero hlength
  · have hflit := h.flit i hi
    obtain ⟨hpos, hfull⟩ := length_chunk_of_lt hsize (hlength ▸ hi)
    rw [hlength, hflit.valueCount]
    exact ⟨hflit.index, hflit.count, hpos, length_chunk_le _ _ _, hfull⟩

/-! ## Runs -/

/-- A multi-accumulating buffer after its reset: the counts are zero. -/
def afterReset (contextValues : Memory (Vector T size) bufferCount)
    (flitBuffer : Memory (Vector T size) (flitBufferDepth bufferCount flitCount)) :
    MultiAccumulatingBuffer T size bufferCount flitCount where
  contextValueCount := Vector.replicate bufferCount 0
  elementCount := Vector.replicate bufferCount 0
  contextValues := contextValues
  flitBuffer := flitBuffer

omit [Inhabited T] in
theorem read_replicate_zero (bufferCount b : Nat) :
    Memory.read (Vector.replicate bufferCount 0) b 0 = 0 := by
  rw [Memory.read, Vector.getElem?_replicate]
  split <;> rfl

/-- A multi-accumulating buffer beside the elements that each buffer was given and those it has
    output. -/
structure Accumulation (T : Type) (size bufferCount flitCount : Nat) where
  buffer : MultiAccumulatingBuffer T size bufferCount flitCount
  inputs : Nat → List T := fun _ => []
  outputs : Nat → List T := fun _ => []
  failed : Bool := false

namespace Accumulation

/-- The elements that a buffer was given and has not output. -/
def buffered (s : Accumulation T size bufferCount flitCount) (b : Nat) : List T :=
  (s.inputs b).drop (s.outputs b).length

/-- The state after a call on a buffer. -/
def after (s : Accumulation T size bufferCount flitCount) (call : AccumulatingCall T inputSize)
    (buffer : MultiAccumulatingBuffer T size bufferCount flitCount) (output : List T) :
    Accumulation T size bufferCount flitCount where
  buffer := buffer
  inputs := Function.update s.inputs call.bufferIndex
    (s.inputs call.bufferIndex ++ newElements call)
  outputs := Function.update s.outputs call.bufferIndex (s.outputs call.bufferIndex ++ output)
  failed := s.failed

end Accumulation

section Systems

variable (contextValues : Memory (Vector T size) bufferCount)
  (flitBuffer : Memory (Vector T size) (flitBufferDepth bufferCount flitCount))

/-- Sequences of calls of `enqueue_with_callback`; each comes with what a read beyond the end of
    the flit buffer gives. -/
def callbackCalls (inputSize : Nat) :
    System (Accumulation T size bufferCount flitCount)
      (Vector T size × AccumulatingCall T inputSize) where
  start := { buffer := afterReset contextValues flitBuffer }
  Enabled s e := Accepts bufferCount flitCount size (s.buffered e.2.bufferIndex) e.2
  next s e :=
    match enqueueWithCallback e.1 s.buffer e.2 with
    | .ok o => s.after e.2 o.buffer (o.callbacks.flatMap FlitCallback.elements)
    | .error _ => { s with failed := true }

/-- Sequences of calls of `enqueue`. -/
def enqueueCalls (inputSize : Nat) :
    System (Accumulation T size bufferCount flitCount) (AccumulatingCall T inputSize) where
  start := { buffer := afterReset contextValues flitBuffer }
  Enabled _ call := call.bufferIndex < bufferCount ∧ call.valueCount ≤ inputSize
  next s call :=
    match s.buffer.enqueue call with
    | .ok (out, buffer) => s.after call buffer (out.values.toList.take out.valueCount)
    | .error _ => { s with failed := true }

end Systems

/-! ## What holds over runs -/

/-- What holds of every buffer after calls that keep `K`: the elements that were given and not
    output are those that the buffer keeps. -/
structure Accumulates
    (K : MultiAccumulatingBuffer T size bufferCount flitCount → Nat → List T → Prop)
    (s : Accumulation T size bufferCount flitCount) : Prop where
  ok : s.failed = false
  keeps : ∀ b, ∃ held, s.inputs b = s.outputs b ++ held ∧ K s.buffer b held

section Accumulates

variable {K : MultiAccumulatingBuffer T size bufferCount flitCount → Nat → List T → Prop}
  {s : Accumulation T size bufferCount flitCount}

omit [Inhabited T] in
theorem Accumulates.prefix (h : Accumulates K s) (b : Nat) : s.outputs b <+: s.inputs b := by
  obtain ⟨held, hsplit, -⟩ := h.keeps b
  exact ⟨held, hsplit.symm⟩

omit [Inhabited T] in
theorem Accumulates.buffered (h : Accumulates K s) (b : Nat) : K s.buffer b (s.buffered b) := by
  obtain ⟨held, hsplit, hheld⟩ := h.keeps b
  rw [Accumulation.buffered, hsplit, List.drop_left]
  exact hheld

omit [Inhabited T] in
/-- A call that outputs the first of the elements it finds and appends, and keeps the others. -/
theorem Accumulates.after (h : Accumulates K s) {call : AccumulatingCall T inputSize}
    {buffer : MultiAccumulatingBuffer T size bufferCount flitCount} {output rest : List T}
    (hsplit : output ++ rest = s.buffered call.bufferIndex ++ newElements call)
    (hrest : K buffer call.bufferIndex rest)
    (hframe : ∀ b held, b ≠ call.bufferIndex → K s.buffer b held → K buffer b held) :
    Accumulates K (s.after call buffer output) := by
  refine ⟨h.ok, fun b => ?_⟩
  obtain ⟨held, hinputs, hheld⟩ := h.keeps b
  by_cases hb : b = call.bufferIndex
  · subst hb
    refine ⟨rest, ?_, hrest⟩
    have hbuffered : s.buffered call.bufferIndex = held := by
      rw [Accumulation.buffered, hinputs, List.drop_left]
    rw [hbuffered] at hsplit
    simp only [Accumulation.after, Function.update_self]
    rw [hinputs, List.append_assoc, ← hsplit, List.append_assoc]
  · refine ⟨held, ?_, hframe b held hb hheld⟩
    simp only [Accumulation.after, Function.update_of_ne hb]
    exact hinputs

end Accumulates

section Invariants

variable (contextValues : Memory (Vector T size) bufferCount)
  (flitBuffer : Memory (Vector T size) (flitBufferDepth bufferCount flitCount))

theorem afterReset_contextHolds (hsize : 0 < size) (b : Nat) :
    (afterReset contextValues flitBuffer).ContextHolds b [] :=
  ⟨read_replicate_zero bufferCount b, hsize, fun j hj => absurd hj (Nat.not_lt_zero j)⟩

theorem afterReset_holds (hsizes : Sizes size flitCount inputSize) (b : Nat) :
    (afterReset contextValues flitBuffer).Holds b [] := by
  have hle := hsizes.le_mul
  have hsize := hsizes.size_pos
  refine ⟨read_replicate_zero bufferCount b, Nat.lt_of_lt_of_le hsize hle, ?_, fun i hi => ?_⟩
  · rw [List.drop_nil]
    exact afterReset_contextHolds contextValues flitBuffer hsize b
  · rw [List.length_nil, Nat.zero_div] at hi
    exact absurd hi (Nat.not_lt_zero i)

theorem callbackCalls_invariant (hsizes : Sizes size flitCount inputSize) :
    (callbackCalls contextValues flitBuffer inputSize).Invariant (Accumulates Holds) where
  start := ⟨rfl, fun b => ⟨[], rfl, afterReset_holds contextValues flitBuffer hsizes b⟩⟩
  step := by
    rintro s ⟨unknown, call⟩ h haccepts
    obtain ⟨o, hok, hresult⟩ :=
      enqueueWithCallback_eq unknown hsizes (h.buffered call.bufferIndex) haccepts
    have hnext : (callbackCalls contextValues flitBuffer inputSize).next s (unknown, call) =
        s.after call o.buffer (o.callbacks.flatMap FlitCallback.elements) := by
      simp only [callbackCalls, hok]
    have helements := hresult.emitted.elements_eq
    rw [List.take_of_length_le (le_flitsOf_mul hsizes.size_pos _)] at helements
    rw [hnext, helements]
    exact h.after (accumulated_append _ _) hresult.holds hresult.frame

theorem enqueueCalls_invariant (hsize : 0 < size) (hinput : inputSize ≤ size) :
    (enqueueCalls contextValues flitBuffer inputSize).Invariant (Accumulates ContextHolds) where
  start := ⟨rfl, fun b => ⟨[], rfl, afterReset_contextHolds contextValues flitBuffer hsize b⟩⟩
  step := by
    rintro s call h ⟨hindex, hcount⟩
    obtain ⟨out, s', hok, hlength, hvalues, hholds, hframe, -, -⟩ :=
      enqueue_eq hinput hindex hcount (h.buffered call.bufferIndex)
    have hnext : (enqueueCalls contextValues flitBuffer inputSize).next s call =
        s.after call s' (out.values.toList.take out.valueCount) := by
      simp only [enqueueCalls, hok]
    rw [hnext, hlength, hvalues.toList_take]
    exact h.after (enqueued_append _ _ _) hholds hframe

end Invariants

/-- Accumulating buffers neither lose nor reorder elements: whatever calls were made, no assertion
    has failed and each buffer has output a prefix of what it was given, and the next call outputs
    what `CallbacksFor` says. -/
theorem accumulating_lossless (contextValues : Memory (Vector T size) bufferCount)
    (flitBuffer : Memory (Vector T size) (flitBufferDepth bufferCount flitCount)) :
    (Sizes size flitCount inputSize → ∀ s,
      (callbackCalls contextValues flitBuffer inputSize).Reachable s →
        s.failed = false ∧ (∀ b, s.outputs b <+: s.inputs b) ∧
        ∀ (unknown : Vector T size) (call : AccumulatingCall T inputSize),
          Accepts bufferCount flitCount size (s.buffered call.bufferIndex) call →
            ∃ o, enqueueWithCallback unknown s.buffer call = .ok o ∧
              CallbacksFor size flitCount (s.buffered call.bufferIndex ++ newElements call)
                call.flush o.callbacks) ∧
    (0 < size → inputSize ≤ size → ∀ s,
      (enqueueCalls contextValues flitBuffer inputSize).Reachable s →
        s.failed = false ∧ (∀ b, s.outputs b <+: s.inputs b) ∧
        ∀ call : AccumulatingCall T inputSize,
          call.bufferIndex < bufferCount → call.valueCount ≤ inputSize →
            ∃ out buffer, s.buffer.enqueue call = .ok (out, buffer) ∧
              out.values.toList.take out.valueCount = (MultiAccumulatingBuffer.enqueued size
                (s.buffered call.bufferIndex ++ newElements call) call.flush).1) := by
  refine ⟨fun hsizes s hs => ?_, fun hsize hinput s hs => ?_⟩
  · have h := (callbackCalls_invariant contextValues flitBuffer hsizes).of_reachable hs
    refine ⟨h.ok, h.prefix, fun unknown call haccepts => ?_⟩
    obtain ⟨o, hok, hresult⟩ :=
      enqueueWithCallback_eq unknown hsizes (h.buffered call.bufferIndex) haccepts
    exact ⟨o, hok, callbacksFor_of_emitted hsizes.size_pos hresult.emitted⟩
  · have h := (enqueueCalls_invariant contextValues flitBuffer hsize hinput).of_reachable hs
    refine ⟨h.ok, h.prefix, fun call hindex hcount => ?_⟩
    obtain ⟨out, s', hok, hlength, hvalues, -, -, -, -⟩ :=
      enqueue_eq hinput hindex hcount (h.buffered call.bufferIndex)
    refine ⟨out, s', hok, ?_⟩
    rw [hlength, hvalues.toList_take]

/-! ### A buffer with two flits of two elements -/

/-- A call with all elements of a vector, on the only buffer. -/
def callWith {n : Nat} (values : Vector Nat n) (flush : Bool) : AccumulatingCall Nat n :=
  ⟨0, values, n, flush⟩

/-- Calls with inputs of a whole flit on a buffer with two flits. -/
def twoFlits (size : Nat) :
    System (Accumulation Nat size 1 2) (Vector Nat size × AccumulatingCall Nat size) :=
  callbackCalls (Vector.replicate 1 (Vector.replicate size 0))
    (Vector.replicate (flitBufferDepth 1 2) (Vector.replicate size 0)) size

theorem accepts_first :
    (twoFlits 2).AllEnabled (twoFlits 2).start [(#v[0, 0], callWith #v[1, 2] false)] :=
  ⟨⟨by decide, by decide, by decide⟩, trivial⟩

theorem accumulating_lossless_twoFlits :
    ((twoFlits 2).run (twoFlits 2).start [(#v[0, 0], callWith #v[1, 2] false)]).failed = false ∧
    (∃ o, enqueueWithCallback #v[0, 0]
        ((twoFlits 2).run (twoFlits 2).start [(#v[0, 0], callWith #v[1, 2] false)]).buffer
        (callWith #v[3, 4] true) = .ok o ∧
      CallbacksFor 2 2 [1, 2, 3, 4] true o.callbacks) ∧
    ∃ out buffer, enqueue (twoFlits 2).start.buffer (callWith #v[5, 6] false) =
        .ok (out, buffer) ∧ out.values.toList.take out.valueCount = [5, 6] := by
  have hsizes : Sizes 2 2 2 := ⟨⟨1, rfl⟩, by decide, by decide, by decide⟩
  have hlossless := @accumulating_lossless Nat _ 2 1 2 2
    (Vector.replicate 1 (Vector.replicate 2 0))
    (Vector.replicate (flitBufferDepth 1 2) (Vector.replicate 2 0))
  obtain ⟨hok, -, hcall⟩ := hlossless.1 hsizes _
    (System.Reachable.run (.start (S := twoFlits 2)) accepts_first)
  obtain ⟨-, -, henqueue⟩ := hlossless.2 (by decide) (by decide) _ .start
  exact ⟨hok, hcall #v[0, 0] (callWith #v[3, 4] true) ⟨by decide, by decide, by decide⟩,
    henqueue (callWith #v[5, 6] false) (by decide) (by decide)⟩

/-- The last flit of the last buffer is read beyond the end of the flit buffer, and with flits of
    one element a flush fails where another element is buffered. -/
theorem accumulating_out_of_range :
    ((twoFlits 2).AllEnabled (twoFlits 2).start
        [(#v[0, 0], callWith #v[1, 2] false), (#v[0, 0], callWith #v[3, 4] false)] ∧
      (enqueueWithCallback #v[0, 0]
        ((twoFlits 2).run (twoFlits 2).start [(#v[0, 0], callWith #v[1, 2] false)]).buffer
        (callWith #v[3, 4] false)).map Outcome.flitReads = .ok [0, 1] ∧
      flitBufferDepth 1 2 = 1) ∧
    (twoFlits 1).AllEnabled (twoFlits 1).start
        [(#v[0], callWith #v[1] false), (#v[0], callWith #v[2] true)] ∧
      ((twoFlits 1).run (twoFlits 1).start
        [(#v[0], callWith #v[1] false), (#v[0], callWith #v[2] true)]).failed = true := by
  refine ⟨⟨⟨?_, ?_, trivial⟩, ?_, ?_⟩, ⟨?_, ?_, trivial⟩, ?_⟩
  · exact ⟨by decide, by decide, by decide⟩
  · exact ⟨by decide, by decide, by decide⟩
  · decide +kernel
  · decide
  · exact ⟨by decide, by decide, by decide⟩
  · exact ⟨by decide, by decide, by decide +kernel⟩
  · decide +kernel

end MultiAccumulatingBuffer

end Kanagawa.Library
