/-
  Kanagawa.Lower.RemoveSemaphores

  Per-function semaphores that are removed after scheduling (`RemoveSemaphores`).

  The pass counts a thread for every pipeline stage of a function and for every slot of the FIFOs
  that the function writes for itself.  The threads of a function are in its pipeline stages and in
  FIFOs between its blocks; a context saver also writes such a FIFO, behind its call.
-/
import Kanagawa.IR.Basic
import Kanagawa.Lib.Runs
import Kanagawa.Lower.NoBackpressure

namespace Kanagawa.Lower.RemoveSemaphores

open Kanagawa.Runs
open NoBackpressure (FifoType)

/-! ## The program -/

/-- A basic block of the program, by the indices of its function and itself. -/
structure BlockId where
  function : Nat
  block : Nat
  deriving Repr, DecidableEq

/-- `_flags._enqueue` -/
structure EnqueueFlags where
  type : IR.EnqueueType
  whichFifo : Nat := 0
  successorFifo : Nat := 0
  deriving Repr, DecidableEq

inductive Operation where
  | enqueue (flags : EnqueueFlags) (successorBlock : Option BlockId)
  | acquireSemaphore (semaphoreIndex : Nat)
  | releaseSemaphore (semaphoreIndex : Nat)
  | other
  deriving Repr, DecidableEq

structure Stage where
  atomicSequence : Nat
  operations : List Operation
  deriving Repr, DecidableEq

structure BasicBlock where
  stages : List Stage
  /-- The unscheduled operations. -/
  operations : List Operation := []
  inputFifoIndices : List Nat
  deriving Repr, DecidableEq

structure Function where
  basicBlocks : List BasicBlock
  maxThreadCountInsideFunction : Nat
  semaphores : List Nat
  deriving Repr, DecidableEq

structure ContextSaver where
  isOrdered : Bool
  fromCallerFifoIndex : Nat
  fromCalleeFifoIndex : Nat
  destinationFifo : Nat
  afterCall : BlockId
  /-- `GetMinThreadCountForFullThroughput` of the callee and the caller. -/
  requiredDepth : Nat
  deriving Repr, DecidableEq

structure FifoDesc where
  type : FifoType := .default
  depth : Nat
  deriving Repr, DecidableEq

structure Program where
  functions : List Function
  contextSavers : List ContextSaver
  /-- The FIFOs of the register table. -/
  fifo : Nat → FifoDesc
  minFifoDepth : Nat

/-! ## Context savers -/

/-- The depth of the FIFO from the caller (`CreateContextSavers`). -/
def callerDepth (minFifoDepth maxThreadCount : Nat) (saver : ContextSaver) : Nat :=
  let depthToAvoidOverflow := max maxThreadCount minFifoDepth
  let depthToAvoidOverflow :=
    if saver.isOrdered && maxThreadCount == 1 then 1 else depthToAvoidOverflow
  if saver.isOrdered && decide (saver.requiredDepth < depthToAvoidOverflow) then saver.requiredDepth
  else depthToAvoidOverflow

/-- `returnSites`: a later context saver of the same FIFO replaces an earlier one. -/
def returnSite (program : Program) (fifo : Nat) : Option ContextSaver :=
  program.contextSavers.reverse.find? (·.destinationFifo == fifo)

/-- The successor FIFO of an `Enqueue` operation into an input FIFO. -/
def successorFifo (program : Program) (flags : EnqueueFlags) (dstInputFifo : Nat) : Nat :=
  match returnSite program dstInputFifo with
  | none => dstInputFifo
  | some contextSaver =>
    match flags.type with
    | .functionCall | .default => dstInputFifo
    | .contextSaverCaller => contextSaver.fromCallerFifoIndex
    | .contextSaverCallee => contextSaver.fromCalleeFifoIndex
    | .reorderBuffer => flags.successorFifo

def setSuccessorFifo (program : Program) : Operation → Operation
  | .enqueue flags (some successor) =>
    let block := (program.functions[successor.function]?.bind (·.basicBlocks[successor.block]?))
    let dstInputFifo := (block.bind (·.inputFifoIndices[flags.whichFifo]?)).getD 0
    .enqueue { flags with successorFifo := successorFifo program flags dstInputFifo }
      (some successor)
  | op => op

/-- `SetSuccessorFifos` -/
def setSuccessorFifos (program : Program) : Program :=
  { program with functions := program.functions.map fun function => { function with
      basicBlocks := function.basicBlocks.map fun block => { block with
        stages := block.stages.map fun stage => { stage with
          operations := stage.operations.map (setSuccessorFifo program) } } } }

/-! ## The pass -/

/-- `GetPipelineStages` -/
def getPipelineStages (block : BasicBlock) : List (List Stage) :=
  let (result, currentPipelineStage) := block.stages.foldl (fun (result, current) stage =>
    if stage.atomicSequence ≠ result.length then (result ++ [current], [stage])
    else (result, current ++ [stage])) ([], [])
  if currentPipelineStage.isEmpty then result else result ++ [currentPipelineStage]

/-- The FIFO of an `Enqueue` operation from a function to itself. -/
def ownFifo (function : Nat) : Operation → Option Nat
  | .enqueue flags (some destBb) =>
    if destBb.function = function then some flags.successorFifo else none
  | _ => none

/-- `maxThreadsInFunction` behind an operation. -/
def countOperation (program : Program) (afterFifoSizing : Bool) (index : Nat) (function : Function)
    (maxThreadsInFunction : Nat) (op : Operation) : Nat :=
  match ownFifo index op with
  | some fifoIndex =>
    if afterFifoSizing then maxThreadsInFunction + (program.fifo fifoIndex).depth
    else function.maxThreadCountInsideFunction + 1
  | none => maxThreadsInFunction

def countStage (program : Program) (afterFifoSizing : Bool) (index : Nat) (function : Function)
    (maxThreadsInFunction : Nat) (stage : Stage) : Nat :=
  stage.operations.foldl (countOperation program afterFifoSizing index function)
    maxThreadsInFunction

def countBlock (program : Program) (afterFifoSizing : Bool) (index : Nat) (function : Function)
    (maxThreadsInFunction : Nat) (block : BasicBlock) : Nat :=
  block.stages.foldl (countStage program afterFifoSizing index function)
    (maxThreadsInFunction + (getPipelineStages block).length)

/-- `maxThreadsInFunction` -/
def maxThreadsInFunction (program : Program) (afterFifoSizing : Bool) (index : Nat)
    (function : Function) : Nat :=
  function.basicBlocks.foldl (countBlock program afterFifoSizing index function) 0

def isSemaphoreOperation : Operation → Bool
  | .acquireSemaphore _ | .releaseSemaphore _ => true
  | _ => false

def removeFunctionSemaphores (program : Program) (afterFifoSizing : Bool) (index : Nat)
    (function : Function) : Function :=
  if maxThreadsInFunction program afterFifoSizing index function ≤
      function.maxThreadCountInsideFunction then
    { function with
      basicBlocks := function.basicBlocks.map fun block => { block with
        operations := block.operations.filter (!isSemaphoreOperation ·) }
      semaphores := [] }
  else function

/-- `RemoveSemaphores` -/
def removeSemaphores (program : Program) (afterFifoSizing : Bool) : Program :=
  { program with
    functions := program.functions.mapIdx (removeFunctionSemaphores program afterFifoSizing) }

/-! ## Threads -/

/-- Where a thread of a function is. -/
inductive Place where
  | stage (block pipelineStage : Nat)
  | fifo (index : Nat)
  deriving Repr, DecidableEq

/-- How many threads a FIFO holds: one that only passes its input on holds none. -/
def fifoCapacity (desc : FifoDesc) : Nat :=
  match desc.type with
  | .passthrough | .passthroughUnregistered => 0
  | .passthroughRegistered => 1
  | _ => desc.depth

/-- There can be a thread at each pipeline stage. -/
def capacity (program : Program) : Place → Nat
  | .stage _ _ => 1
  | .fifo index => fifoCapacity (program.fifo index)

/-- The FIFOs that a pipeline stage of a block writes for its own function. -/
def stageFifos (index : Nat) (block : BasicBlock) (pipelineStage : Nat) : List Nat :=
  (block.stages.filter (·.atomicSequence == pipelineStage)).flatMap
    (·.operations.filterMap (ownFifo index))

/-- A context saver that moves the threads of a function behind a call. -/
def Returns (program : Program) (index source destination : Nat) (saver : ContextSaver) : Bool :=
  decide (saver ∈ program.contextSavers) && saver.afterCall.function == index &&
    saver.fromCallerFifoIndex == source && saver.destinationFifo == destination

/-- A thread at a place is written to a FIFO. -/
def writes (program : Program) (index : Nat) (function : Function) (destination : Nat) : Place → Bool
  | .stage block pipelineStage =>
    (function.basicBlocks[block]?).any fun block =>
      (stageFifos index block pipelineStage).contains destination
  | .fifo source => program.contextSavers.any (Returns program index source destination)

/-- A block takes threads from a FIFO. -/
def reads (function : Function) (source block : Nat) : Bool :=
  (function.basicBlocks[block]?).any fun block =>
    block.inputFifoIndices.contains source && !block.stages.isEmpty

/-- The places that a thread goes to next; it does not stop in a FIFO that passes its input on. -/
def link (program : Program) (index : Nat) (function : Function) (source : Place) : Place → Bool
  | .fifo destination => writes program index function destination source
  | .stage block 0 =>
    match source with
    | .fifo fifo => reads function fifo block ||
        program.contextSavers.any fun saver =>
          fifoCapacity (program.fifo saver.destinationFifo) == 0 &&
            writes program index function saver.destinationFifo source &&
            reads function saver.destinationFifo block
    | .stage from_ pipelineStage => (function.basicBlocks[from_]?).any fun sourceBlock =>
        (stageFifos index sourceBlock pipelineStage).any fun fifo =>
          fifoCapacity (program.fifo fifo) == 0 && reads function fifo block
  | .stage block (pipelineStage + 1) =>
    source == .stage block pipelineStage &&
      (function.basicBlocks[block]?).any fun block =>
        pipelineStage + 1 < (getPipelineStages block).length

inductive Event where
  | enter (block : Nat)
  | move (source destination : Place)
  | leave (block pipelineStage : Nat)
  deriving Repr, DecidableEq

/-- The threads of a function. -/
abbrev Threads := List Place

def next (threads : Threads) : Event → Threads
  | .enter block => .stage block 0 :: threads
  | .move source destination => destination :: threads.erase source
  | .leave block pipelineStage => threads.erase (.stage block pipelineStage)

/-- A thread enters when it gets the semaphore, if there is one, and goes where there is room. -/
def Enabled (program : Program) (index : Nat) (function : Function) (threads : Threads) :
    Event → Prop
  | .enter block =>
    (function.semaphores = [] ∨ threads.length < function.maxThreadCountInsideFunction) ∧
      (function.basicBlocks[block]?).any (!·.stages.isEmpty) = true ∧
      threads.count (.stage block 0) = 0
  | .move source destination => source ∈ threads ∧
      link program index function source destination = true ∧
      threads.count destination < capacity program destination
  | .leave block pipelineStage => .stage block pipelineStage ∈ threads

instance (program : Program) (index : Nat) (function : Function) (threads : Threads) (e : Event) :
    Decidable (Enabled program index function threads e) :=
  match e with
  | .enter _ => inferInstanceAs (Decidable ((_ ∨ _) ∧ _ ∧ _))
  | .move _ _ => inferInstanceAs (Decidable (_ ∧ _ ∧ _))
  | .leave _ _ => inferInstanceAs (Decidable (_ ∈ threads))

/-- The threads of a function, from reset. -/
def system (program : Program) (index : Nat) (function : Function) : System Threads Event where
  start := []
  Enabled := Enabled program index function
  next := next

instance (program : Program) (index : Nat) (function : Function) (threads : Threads) (e : Event) :
    Decidable ((system program index function).Enabled threads e) :=
  inferInstanceAs (Decidable (Enabled program index function threads e))

/-! ## Places of a function -/

/-- The FIFOs that a block writes for its own function, as often as it has operations for them. -/
def blockFifos (index : Nat) (block : BasicBlock) : List Nat :=
  block.stages.flatMap (·.operations.filterMap (ownFifo index))

def functionFifos (index : Nat) (function : Function) : List Nat :=
  function.basicBlocks.flatMap (blockFifos index)

/-- The places of some blocks of a function, the first of which has a given index. -/
def places (index : Nat) : Nat → List BasicBlock → List Place
  | _, [] => []
  | first, block :: blocks =>
    (List.range (getPipelineStages block).length).map (Place.stage first) ++
      (blockFifos index block).map Place.fifo ++ places index (first + 1) blocks

/-- What the context savers and the FIFOs have after they were created and sized. -/
structure Sized (program : Program) : Prop where
  caller : ∀ saver ∈ program.contextSavers, ∀ function,
    program.functions[saver.afterCall.function]? = some function →
    callerDepth program.minFifoDepth function.maxThreadCountInsideFunction saver ≤
      (program.fifo saver.fromCallerFifoIndex).depth
  registered : ∀ index, (program.fifo index).type = .passthroughRegistered →
    1 ≤ (program.fifo index).depth

/-- A step does not take a thread out of an ordered context saver into a FIFO with room that none of
    the operations of the function writes. -/
def Counted (program : Program) (index : Nat) (function : Function) : Event → Prop
  | .move (.fifo source) (.fifo destination) =>
    (∃ saver, Returns program index source destination saver = true ∧ saver.isOrdered = false) ∨
      destination ∈ functionFifos index function
  | _ => True

variable {program : Program} {afterFifoSizing : Bool} {index : Nat} {function : Function}

/-! ### Sums -/

/-- A sum whose steps add enough when they stay under a bound. -/
theorem le_foldl {β : Type} {step : Nat → β → Nat} {weight : β → Nat} {bound : Nat}
    (h : ∀ n b, step n b ≤ bound → n + weight b ≤ step n b) (l : List β) :
    ∀ n, l.foldl step n ≤ bound → n + (l.map weight).sum ≤ l.foldl step n := by
  induction l with
  | nil => exact fun n _ => le_rfl
  | cons b l ih =>
    intro n hbound
    rw [List.foldl_cons] at hbound ⊢
    have hrest := ih (step n b) hbound
    have hfirst := h n b (by omega)
    rw [List.map_cons, List.sum_cons]
    omega

/-- Elements that are among some others, none of them too often, are no more than their room. -/
theorem length_le_sum {α : Type} [DecidableEq α] {room : α → Nat} (others : List α) :
    ∀ l : List α, (∀ x ∈ l, x ∈ others) → (∀ x, l.count x ≤ room x) →
      l.length ≤ (others.map room).sum := by
  induction others with
  | nil =>
    intro l hmem _
    rw [List.eq_nil_iff_forall_not_mem.mpr fun x hx => List.not_mem_nil (hmem x hx)]
    exact Nat.zero_le _
  | cons y others ih =>
    intro l hmem hroom
    have hrest := ih (l.filter (· ≠ y)) ?_ ?_
    · -- Those that are the first one, and the others.
      have hcount := hroom y
      have hlength : l.length = l.count y + (l.filter (· ≠ y)).length := by
        rw [List.count_eq_length_filter, List.length_eq_length_filter_add (· == y)]
        congr 2
        apply List.filter_congr
        intro x _
        by_cases hx : x = y
        · simp [hx]
        · simp [hx]
      rw [List.map_cons, List.sum_cons]
      omega
    · intro x hx
      obtain ⟨hl, hne⟩ := List.mem_filter.mp hx
      exact (List.mem_cons.mp (hmem x hl)).resolve_left (by simpa using hne)
    · intro x
      exact (List.Sublist.count_le x List.filter_sublist).trans (hroom x)

/-- The depths of the FIFOs of some operations. -/
theorem sum_ownFifo (depth : Nat → Nat) (operations : List Operation) :
    (operations.map fun op => ((ownFifo index op).map depth).getD 0).sum =
      ((operations.filterMap (ownFifo index)).map depth).sum := by
  induction operations with
  | nil => rfl
  | cons op operations ih =>
    rw [List.map_cons, List.sum_cons, ih, List.filterMap_cons]
    cases ownFifo index op with
    | none => simp
    | some fifo => simp

theorem sum_flatMap {α β : Type} (f : α → List β) (weight : β → Nat) (l : List α) :
    ((l.flatMap f).map weight).sum = (l.map fun x => ((f x).map weight).sum).sum := by
  induction l with
  | nil => rfl
  | cons x l ih => rw [List.flatMap_cons, List.map_append, List.sum_append, ih, List.map_cons,
      List.sum_cons]

/-- The pass counts the stages and the FIFOs of a function whose semaphore it removes. -/
theorem sum_le_maxThreadsInFunction
    (hremoved : maxThreadsInFunction program afterFifoSizing index function ≤
      function.maxThreadCountInsideFunction) :
    (function.basicBlocks.map fun block => (getPipelineStages block).length +
      ((blockFifos index block).map fun fifo => (program.fifo fifo).depth).sum).sum ≤
      maxThreadsInFunction program afterFifoSizing index function := by
  have hop : ∀ n op, countOperation program afterFifoSizing index function n op ≤
      function.maxThreadCountInsideFunction →
      n + ((ownFifo index op).map fun fifo => (program.fifo fifo).depth).getD 0 ≤
        countOperation program afterFifoSizing index function n op := by
    intro n op hbound
    rw [countOperation] at hbound ⊢
    cases hown : ownFifo index op with
    | none => exact le_rfl
    | some fifo =>
      rw [hown] at hbound
      cases afterFifoSizing with
      | true => exact le_rfl
      | false =>
        -- Unsized FIFOs keep the semaphore.
        have hlt : function.maxThreadCountInsideFunction + 1 ≤
            function.maxThreadCountInsideFunction := hbound
        omega
  have hstage : ∀ n stage, countStage program afterFifoSizing index function n stage ≤
      function.maxThreadCountInsideFunction →
      n + ((stage.operations.filterMap (ownFifo index)).map fun fifo =>
          (program.fifo fifo).depth).sum ≤
        countStage program afterFifoSizing index function n stage := by
    intro n stage hbound
    rw [← sum_ownFifo]
    exact le_foldl hop stage.operations n hbound
  have hblock : ∀ n block, countBlock program afterFifoSizing index function n block ≤
      function.maxThreadCountInsideFunction →
      n + ((getPipelineStages block).length +
          ((blockFifos index block).map fun fifo => (program.fifo fifo).depth).sum) ≤
        countBlock program afterFifoSizing index function n block := by
    intro n block hbound
    rw [blockFifos, sum_flatMap, ← Nat.add_assoc]
    exact le_foldl hstage block.stages _ hbound
  have hall := le_foldl hblock function.basicBlocks 0 hremoved
  rwa [Nat.zero_add] at hall

theorem fifoCapacity_le (hsized : Sized program) (fifo : Nat) :
    fifoCapacity (program.fifo fifo) ≤ (program.fifo fifo).depth := by
  have hregistered := hsized.registered fifo
  rw [fifoCapacity]
  split
  · exact Nat.zero_le _
  · exact Nat.zero_le _
  · exact hregistered (by assumption)
  · exact le_rfl

theorem sum_capacity_le (hsized : Sized program) (blocks : List BasicBlock) : ∀ first,
    ((places index first blocks).map (capacity program)).sum ≤
      (blocks.map fun block => (getPipelineStages block).length +
        ((blockFifos index block).map fun fifo => (program.fifo fifo).depth).sum).sum := by
  induction blocks with
  | nil => exact fun _ => le_rfl
  | cons block blocks ih =>
    intro first
    have hrest := ih (first + 1)
    have hstages : (((List.range (getPipelineStages block).length).map (Place.stage first)).map
        (capacity program)).sum = (getPipelineStages block).length := by
      rw [List.map_map]
      show ((List.range _).map fun _ => 1).sum = _
      simp
    have hfifos : (((blockFifos index block).map Place.fifo).map (capacity program)).sum ≤
        ((blockFifos index block).map fun fifo => (program.fifo fifo).depth).sum := by
      rw [List.map_map]
      exact List.sum_le_sum fun fifo _ => fifoCapacity_le hsized fifo
    rw [places, List.map_append, List.map_append, List.sum_append, List.sum_append, hstages,
      List.map_cons, List.sum_cons]
    omega

/-! ### Places -/

theorem length_getPipelineStages_pos {block : BasicBlock} (h : block.stages ≠ []) :
    0 < (getPipelineStages block).length := by
  obtain ⟨stages, last, hstages⟩ := List.eq_nil_or_concat block.stages |>.resolve_left h
  rw [getPipelineStages, hstages, List.concat_eq_append, List.foldl_append]
  generalize stages.foldl _ _ = state
  obtain ⟨result, current⟩ := state
  -- The last stage is always among the stragglers.
  simp only [List.foldl_cons, List.foldl_nil]
  split
  · simp
  · simp

theorem mem_places {blocks : List BasicBlock} {b : Nat} {block : BasicBlock}
    (hblock : blocks[b]? = some block) : ∀ first,
    (∀ k < (getPipelineStages block).length, .stage (first + b) k ∈ places index first blocks) ∧
      ∀ fifo ∈ blockFifos index block, .fifo fifo ∈ places index first blocks := by
  induction blocks generalizing b with
  | nil => exact absurd hblock (by simp)
  | cons other blocks ih =>
    intro first
    cases b with
    | zero =>
      have heq : other = block := by simpa using hblock
      subst heq
      refine ⟨fun k hk => ?_, fun fifo hfifo => ?_⟩
      · exact List.mem_append_left _ (List.mem_append_left _
          (List.mem_map.mpr ⟨k, List.mem_range.mpr hk, rfl⟩))
      · exact List.mem_append_left _ (List.mem_append_right _
          (List.mem_map.mpr ⟨fifo, hfifo, rfl⟩))
    | succ b =>
      obtain ⟨hstages, hfifos⟩ := ih (by simpa using hblock) (first + 1)
      refine ⟨fun k hk => ?_, fun fifo hfifo => List.mem_append_right _ (hfifos fifo hfifo)⟩
      have hplace := hstages k hk
      rw [Nat.add_right_comm] at hplace
      exact List.mem_append_right _ hplace

theorem stage_mem_places {b k : Nat} {block : BasicBlock}
    (hblock : function.basicBlocks[b]? = some block) (hk : k < (getPipelineStages block).length) :
    .stage b k ∈ places index 0 function.basicBlocks := by
  have hplace := (@mem_places index _ _ _ hblock 0).1 k hk
  rwa [Nat.zero_add] at hplace

theorem fifo_mem_places {fifo : Nat} (h : fifo ∈ functionFifos index function) :
    .fifo fifo ∈ places index 0 function.basicBlocks := by
  obtain ⟨block, hblock, hfifo⟩ := List.mem_flatMap.mp h
  obtain ⟨b, hb, rfl⟩ := List.mem_iff_getElem.mp hblock
  exact (mem_places (List.getElem?_eq_getElem hb) 0).2 fifo hfifo

/-- The FIFOs among the places are those that the function writes. -/
theorem mem_functionFifos {fifo : Nat} {blocks : List BasicBlock} : ∀ {first : Nat},
    .fifo fifo ∈ places index first blocks → fifo ∈ blocks.flatMap (blockFifos index) := by
  induction blocks with
  | nil => exact fun h => absurd h List.not_mem_nil
  | cons block blocks ih =>
    intro first h
    rw [List.flatMap_cons, List.mem_append]
    rcases List.mem_append.mp h with h | h
    · rcases List.mem_append.mp h with h | h
      · obtain ⟨k, -, hk⟩ := List.mem_map.mp h
        exact Place.noConfusion hk
      · obtain ⟨other, hother, heq⟩ := List.mem_map.mp h
        exact .inl (Place.fifo.inj heq ▸ hother)
    · exact .inr (ih h)

theorem mem_blockFifos {block : BasicBlock} {k fifo : Nat} (h : fifo ∈ stageFifos index block k) :
    fifo ∈ blockFifos index block := by
  obtain ⟨stage, hstage, hfifo⟩ := List.mem_flatMap.mp h
  exact List.mem_flatMap.mpr ⟨stage, (List.mem_filter.mp hstage).1, hfifo⟩

theorem reads_mem_places {fifo b : Nat} (h : reads function fifo b = true) :
    .stage b 0 ∈ places index 0 function.basicBlocks := by
  obtain ⟨block, hblock, hread⟩ := (Option.any_eq_true _ _).mp h
  rw [Bool.and_eq_true, Bool.not_eq_true', List.isEmpty_eq_false_iff] at hread
  exact stage_mem_places hblock (length_getPipelineStages_pos hread.2)

/-! ## The invariant -/

/-- The threads of a function whose semaphore was removed: each is in one of the places, and no
    place has more than it can hold. -/
structure Inv (program : Program) (index : Nat) (function : Function) (threads : Threads) : Prop where
  mem : ∀ place ∈ threads, place ∈ places index 0 function.basicBlocks
  room : ∀ place, threads.count place ≤ capacity program place

/-- An unordered context saver has a slot for every thread, so the pass keeps the semaphore. -/
theorem fromCaller_not_mem
    (hremoved : maxThreadsInFunction program afterFifoSizing index function ≤
      function.maxThreadCountInsideFunction) {saver : ContextSaver}
    (hdepth : callerDepth program.minFifoDepth function.maxThreadCountInsideFunction saver ≤
      (program.fifo saver.fromCallerFifoIndex).depth) (hunordered : saver.isOrdered = false) :
    saver.fromCallerFifoIndex ∉ functionFifos index function := by
  intro hmem
  obtain ⟨block, hblock, hfifo⟩ := List.mem_flatMap.mp hmem
  have hsum := sum_le_maxThreadsInFunction hremoved
  have hstage : block.stages ≠ [] := by
    intro hnil
    rw [blockFifos, hnil] at hfifo
    exact List.not_mem_nil hfifo
  have hpos := length_getPipelineStages_pos hstage
  have hslots : function.maxThreadCountInsideFunction ≤
      (program.fifo saver.fromCallerFifoIndex).depth := by
    refine Nat.le_trans ?_ hdepth
    simp only [callerDepth, hunordered, Bool.false_and, Bool.false_eq_true, if_false]
    exact Nat.le_max_left _ _
  -- The block with the call has a stage besides.
  have hfifos := List.single_le_sum (l := (blockFifos index block).map fun fifo =>
    (program.fifo fifo).depth) (fun _ _ => Nat.zero_le _) _ (List.mem_map_of_mem hfifo)
  have hblocks := List.single_le_sum (l := function.basicBlocks.map fun block =>
    (getPipelineStages block).length + ((blockFifos index block).map fun fifo =>
      (program.fifo fifo).depth).sum) (fun _ _ => Nat.zero_le _) _ (List.mem_map_of_mem hblock)
  omega

/-- What the sized context savers of a function give. -/
def CallerDepths (program : Program) (index : Nat) (function : Function) : Prop :=
  ∀ saver ∈ program.contextSavers, saver.afterCall.function = index →
    callerDepth program.minFifoDepth function.maxThreadCountInsideFunction saver ≤
      (program.fifo saver.fromCallerFifoIndex).depth

/-- A thread that moves comes to one of the places. -/
theorem Inv.link_mem (hdepths : CallerDepths program index function)
    (hremoved : maxThreadsInFunction program afterFifoSizing index function ≤
      function.maxThreadCountInsideFunction) {threads : Threads}
    (h : Inv program index function threads) {source destination : Place}
    (hcounted : Counted program index function (.move source destination))
    (hsource : source ∈ threads) (hlink : link program index function source destination = true) :
    destination ∈ places index 0 function.basicBlocks := by
  cases destination with
  | fifo destination =>
    cases source with
    | stage b k =>
      obtain ⟨block, hblock, hwrite⟩ := (Option.any_eq_true _ _).mp hlink
      apply fifo_mem_places
      have hfifo : destination ∈ stageFifos index block k := by simpa using hwrite
      exact List.mem_flatMap.mpr ⟨block, List.mem_of_getElem? hblock, mem_blockFifos hfifo⟩
    | fifo source =>
      rcases hcounted with ⟨saver, hreturns, hunordered⟩ | hcounted
      · -- The caller has written the FIFO of the context saver itself.
        simp only [Returns, Bool.and_eq_true, decide_eq_true_eq, beq_iff_eq] at hreturns
        obtain ⟨⟨⟨hmem, hfunction⟩, rfl⟩, -⟩ := hreturns
        have hkept := fromCaller_not_mem hremoved (hdepths saver hmem hfunction) hunordered
        exact absurd (mem_functionFifos (h.mem _ hsource)) hkept
      · exact fifo_mem_places hcounted
  | stage b k =>
    cases k with
    | zero =>
      cases source with
      | stage b' k' =>
        obtain ⟨block, hblock, hpass⟩ := (Option.any_eq_true _ _).mp hlink
        obtain ⟨fifo, -, hfifo⟩ := List.any_eq_true.mp hpass
        exact reads_mem_places (Bool.and_eq_true_iff.mp hfifo).2
      | fifo source =>
        rcases Bool.or_eq_true_iff.mp hlink with hread | hpass
        · exact reads_mem_places hread
        · obtain ⟨saver, -, hsaver⟩ := List.any_eq_true.mp hpass
          exact reads_mem_places (Bool.and_eq_true_iff.mp hsaver).2
    | succ k =>
      obtain ⟨block, hblock, hk⟩ := (Option.any_eq_true _ _).mp (Bool.and_eq_true_iff.mp hlink).2
      exact stage_mem_places hblock (of_decide_eq_true hk)

theorem Inv.step (hdepths : CallerDepths program index function)
    (hremoved : maxThreadsInFunction program afterFifoSizing index function ≤
      function.maxThreadCountInsideFunction) {threads : Threads}
    (h : Inv program index function threads) {e : Event} (hcounted : Counted program index function e)
    (he : Enabled program index function threads e) :
    Inv program index function (next threads e) := by
  have herase : ∀ source : Place, ∀ place,
      (threads.erase source).count place ≤ threads.count place :=
    fun source place => List.Sublist.count_le place List.erase_sublist
  have hmem : ∀ source : Place, ∀ place ∈ threads.erase source,
      place ∈ places index 0 function.basicBlocks :=
    fun source place hplace => h.mem place (List.mem_of_mem_erase hplace)
  cases e with
  | enter b =>
    obtain ⟨-, hblock, hfree⟩ := he
    obtain ⟨block, hblock, hstages⟩ := (Option.any_eq_true _ _).mp hblock
    have hpos : 0 < (getPipelineStages block).length := by
      apply length_getPipelineStages_pos
      simpa using hstages
    constructor
    · intro place hplace
      rcases List.mem_cons.mp hplace with rfl | hplace
      · exact stage_mem_places hblock hpos
      · exact h.mem place hplace
    · intro place
      have hroom := h.room place
      rw [next, List.count_cons]
      split
      · rename_i heq
        have hplace : Place.stage b 0 = place := by simpa using heq
        rw [← hplace, hfree]
        exact le_rfl
      · exact hroom
  | move source destination =>
    obtain ⟨hsource, hlink, hroom⟩ := he
    constructor
    · intro place hplace
      rcases List.mem_cons.mp hplace with rfl | hplace
      · exact h.link_mem hdepths hremoved hcounted hsource hlink
      · exact hmem source place hplace
    · intro place
      have hcount := herase source place
      have hplaceRoom := h.room place
      rw [next, List.count_cons]
      split
      · rename_i heq
        have hplace : destination = place := by simpa using heq
        subst hplace
        omega
      · omega
  | leave b k =>
    exact ⟨hmem _, fun place => (herase _ place).trans (h.room place)⟩

/-- The threads of a function whose semaphore was removed are no more than the pass has counted. -/
theorem Inv.length_le (hsized : Sized program)
    (hremoved : maxThreadsInFunction program afterFifoSizing index function ≤
      function.maxThreadCountInsideFunction) {threads : Threads}
    (h : Inv program index function threads) :
    threads.length ≤ function.maxThreadCountInsideFunction :=
  calc threads.length
      ≤ ((places index 0 function.basicBlocks).map (capacity program)).sum :=
        length_le_sum _ threads h.mem h.room
    _ ≤ _ := sum_capacity_le hsized function.basicBlocks 0
    _ ≤ maxThreadsInFunction program afterFifoSizing index function :=
        sum_le_maxThreadsInFunction hremoved
    _ ≤ function.maxThreadCountInsideFunction := hremoved

/-! ## The pass -/

/-- The pass removes unscheduled operations only, so it would count the same again. -/
theorem maxThreadsInFunction_remove (semaphores : List Nat) :
    maxThreadsInFunction program afterFifoSizing index
      { function with
        basicBlocks := function.basicBlocks.map fun block => { block with
          operations := block.operations.filter (!isSemaphoreOperation ·) }
        semaphores } = maxThreadsInFunction program afterFifoSizing index function := by
  rw [maxThreadsInFunction, List.foldl_map]
  rfl

/-- With the semaphore the threads are counted one by one. -/
theorem length_le_of_semaphores (hsemaphores : function.semaphores ≠ []) {threads : Threads}
    {e : Event} (h : threads.length ≤ function.maxThreadCountInsideFunction)
    (he : Enabled program index function threads e) :
    (next threads e).length ≤ function.maxThreadCountInsideFunction := by
  cases e with
  | enter b =>
    have hlt := he.1.resolve_left hsemaphores
    exact hlt
  | move source destination =>
    rw [next, List.length_cons, List.length_erase_of_mem he.1]
    have hpos := List.length_pos_of_mem he.1
    omega
  | leave b k => exact (List.length_erase_le).trans h

/-- A function that has a semaphore before the pass holds no more threads than it may, in every run
    in which ordered context savers write no FIFO with room that the function does not write. -/
theorem removeSemaphores_threads (program : Program) (afterFifoSizing : Bool)
    (hsized : Sized program) (index : Nat) (function after : Function)
    (hfunction : program.functions[index]? = some function) (hsemaphores : function.semaphores ≠ [])
    (hafter : (removeSemaphores program afterFifoSizing).functions[index]? = some after)
    (threads : Threads)
    (hreachable : ((system (removeSemaphores program afterFifoSizing) index after).restrict
      (Counted (removeSemaphores program afterFifoSizing) index after)).Reachable threads) :
    threads.length ≤ function.maxThreadCountInsideFunction := by
  have heq : removeFunctionSemaphores program afterFifoSizing index function = after := by
    simpa [removeSemaphores, hfunction] using hafter
  rw [removeFunctionSemaphores] at heq
  split at heq
  · rename_i hremoved
    have hdepths : CallerDepths program index function := by
      intro saver hsaver hcaller
      exact hsized.caller saver hsaver function (by rw [hcaller, hfunction])
    rw [← maxThreadsInFunction_remove []] at hremoved
    rw [heq] at hremoved
    have hmax : after.maxThreadCountInsideFunction = function.maxThreadCountInsideFunction := by
      rw [← heq]
    rw [← hmax] at hremoved ⊢
    have hdepths' : CallerDepths program index after := by
      intro saver hsaver hcaller
      rw [hmax]
      exact hdepths saver hsaver hcaller
    have hinvariant : ((system (removeSemaphores program afterFifoSizing) index after).restrict
        (Counted (removeSemaphores program afterFifoSizing) index after)).Invariant
          (Inv program index after) := by
      constructor
      · exact ⟨fun _ h => absurd h List.not_mem_nil, fun _ => Nat.zero_le _⟩
      · intro threads e h he
        exact h.step hdepths' hremoved he.2 he.1
    exact (hinvariant.of_reachable hreachable).length_le hsized hremoved
  · subst heq
    have hinvariant : ((system (removeSemaphores program afterFifoSizing) index function).restrict
        (Counted (removeSemaphores program afterFifoSizing) index function)).Invariant
          fun threads => threads.length ≤ function.maxThreadCountInsideFunction := by
      constructor
      · exact Nat.zero_le _
      · intro threads e h he
        exact length_le_of_semaphores hsemaphores h he.1
    exact hinvariant.of_reachable hreachable

/-- A function of eight threads with an ordered call of another one. -/
def callProgram (destination : FifoDesc) : Program := setSuccessorFifos {
  functions := [
    { basicBlocks := [
        { stages := [⟨0, [.enqueue { type := .contextSaverCaller } (some ⟨0, 1⟩),
            .enqueue { type := .functionCall } (some ⟨1, 0⟩)]⟩]
          operations := [.acquireSemaphore 0], inputFifoIndices := [0] },
        { stages := [⟨0, [.enqueue { type := .contextSaverCallee } none]⟩]
          operations := [.releaseSemaphore 0], inputFifoIndices := [1] }]
      maxThreadCountInsideFunction := 8, semaphores := [0] },
    { basicBlocks := [
        { stages := [⟨0, [.enqueue { type := .contextSaverCallee } (some ⟨0, 1⟩)]⟩]
          inputFifoIndices := [2] }]
      maxThreadCountInsideFunction := 8, semaphores := [] }]
  contextSavers := [⟨true, 3, 4, 1, ⟨0, 1⟩, 4⟩]
  fifo := fun
    | 1 => destination
    | 3 => { type := .contextSaverCaller true, depth := 4 }
    | _ => { depth := 4 }
  minFifoDepth := 4 }

theorem sized_callProgram {destination : FifoDesc} (h : destination.type ≠ .passthroughRegistered) :
    Sized (callProgram destination) where
  caller := by
    intro saver hsaver function hfunction
    rw [List.mem_singleton.mp hsaver] at hfunction ⊢
    rw [← Option.some.inj hfunction]
    show callerDepth 4 8 ⟨true, 3, 4, 1, ⟨0, 1⟩, 4⟩ ≤ 4
    decide
  registered := by
    intro index hregistered
    simp only [callProgram, setSuccessorFifos] at hregistered ⊢
    split at hregistered
    · exact absurd hregistered h
    · exact absurd hregistered (by decide)
    · exact absurd hregistered (by decide)

/-- The return site passes its input on, as it does without an atomic loop behind the call. -/
theorem removeSemaphores_threads_passthrough :
    ∃ after, (removeSemaphores (callProgram ⟨.passthrough, 4⟩) true).functions[0]? = some after ∧
      ((system (removeSemaphores (callProgram ⟨.passthrough, 4⟩) true) 0 after).run []
        [.enter 0, .move (.stage 0 0) (.fifo 3), .enter 0,
          .move (.fifo 3) (.stage 1 0)]).length ≤ 8 := by
  have hsized : Sized (callProgram ⟨.passthrough, 4⟩) := sized_callProgram (by decide)
  refine ⟨_, rfl, removeSemaphores_threads _ true hsized 0 _ _ rfl (by decide) rfl _
    (.run .start ⟨⟨?_, trivial⟩, ⟨?_, trivial⟩, ⟨?_, trivial⟩, ⟨?_, trivial⟩, trivial⟩)⟩
  · decide +kernel
  · decide +kernel
  · decide +kernel
  · decide +kernel

/-- The return site has a FIFO: the pass removes the semaphore, and there are nine threads. -/
theorem removeSemaphores_nine_threads :
    Sized (callProgram { depth := 4 }) ∧ ∃ after threads,
      (removeSemaphores (callProgram { depth := 4 }) true).functions[0]? = some after ∧
      after.semaphores = [] ∧
      (system (removeSemaphores (callProgram { depth := 4 }) true) 0 after).Reachable threads ∧
      after.maxThreadCountInsideFunction < threads.length := by
  let returned : List Event :=
    [.enter 0, .move (.stage 0 0) (.fifo 3), .move (.fifo 3) (.fifo 1)]
  let called : List Event := [.enter 0, .move (.stage 0 0) (.fifo 3)]
  refine ⟨sized_callProgram (by decide), _, (system _ 0 _).run [] (returned ++ returned ++ returned ++
    returned ++ called ++ called ++ called ++ called ++ [.enter 0]), rfl, ?_, .run .start ?_, ?_⟩
  · decide +kernel
  · decide +kernel
  · decide +kernel

end Kanagawa.Lower.RemoveSemaphores
