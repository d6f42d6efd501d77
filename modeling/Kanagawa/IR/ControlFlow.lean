/-
  Kanagawa.IR.ControlFlow

  Functions, the paths through their basic blocks, and what a thread does along
  one.

  The blocks of a function are numbered by position, in the order in which work
  lists take them (that of their addresses); a larger number is a block of another
  function.  A thread leaves a block through an `Enqueue`: the successor gets, for
  each original register, the value of the register it was renamed to.
-/
import Kanagawa.IR.Semantics

namespace Kanagawa.IR

/-- `Function`: the blocks, and which of them is `_start`. -/
structure Function where
  start : Nat
  basicBlocks : List BasicBlock

namespace Function

/-- The operations of a block, in the order of `ForEachOperationForward`. -/
def operationsOf (f : Function) (b : Nat) : List Operation :=
  match f.basicBlocks[b]? with
  | some basicBlock => basicBlock.allOperations
  | none => []

/-- The operations of `_operations` only. -/
def bodyOf (f : Function) (b : Nat) : List Operation :=
  match f.basicBlocks[b]? with
  | some basicBlock => basicBlock.operations
  | none => []

/-- `_getSuccessorBlock`, when it leads to a block of the same function. -/
def successorOf (f : Function) (op : Operation) : Option Nat :=
  op.successorBlock.filter (· < f.basicBlocks.length)

/-- Operation `i` of block `b` is an `Enqueue` that leads to block `c` of the function. -/
structure Edge (f : Function) (b i : Nat) (op : Operation) (c : Nat) : Prop where
  position : (f.operationsOf b)[i]? = some op
  leads : f.successorOf op = some c

/-- The blocks a thread visits before it comes to a block, from the start of the
    function on. -/
inductive Path (f : Function) : List Nat → Nat → Prop
  | start : f.Path [] f.start
  | step {visited : List Nat} {b i c : Nat} {op : Operation} :
      f.Path visited b → f.Edge b i op c → f.Path (visited ++ [b]) c

/-- Some thread gets to the block. -/
def Reachable (f : Function) (b : Nat) : Prop := ∃ visited, f.Path visited b

theorem Edge.lt {f : Function} {b i c : Nat} {op : Operation} (h : f.Edge b i op c) :
    c < f.basicBlocks.length := by
  have hleads := h.leads
  rw [successorOf, Option.filter_eq_some_iff] at hleads
  exact of_decide_eq_true hleads.2

theorem Edge.block_lt {f : Function} {b i c : Nat} {op : Operation} (h : f.Edge b i op c) :
    b < f.basicBlocks.length := by
  by_contra hge
  have hpos := h.position
  rw [operationsOf, List.getElem?_eq_none (Nat.le_of_not_lt hge)] at hpos
  exact nomatch hpos

/-- A block that was visited was come to on a shorter path. -/
theorem Path.shorter {f : Function} {visited : List Nat} {c b : Nat} (h : f.Path visited c)
    (hb : b ∈ visited) : ∃ visited', f.Path visited' b ∧ visited'.length < visited.length := by
  induction h with
  | start => exact nomatch hb
  | @step visited d i c op hpath _ ih =>
      rw [List.length_append, List.length_singleton]
      rcases List.mem_append.mp hb with hb | hb
      · obtain ⟨visited', hpath', hlt⟩ := ih hb
        exact ⟨visited', hpath', by omega⟩
      · rw [List.mem_singleton.mp hb]
        exact ⟨visited, hpath, Nat.lt_succ_self _⟩

/-- A reachable block has a path that comes to it for the first time. -/
theorem Reachable.first_arrival {f : Function} {b : Nat} (h : f.Reachable b) :
    ∃ visited, f.Path visited b ∧ b ∉ visited := by
  obtain ⟨visited, hpath⟩ := h
  induction hn : visited.length using Nat.strongRecOn generalizing visited with
  | ind n ih =>
      by_cases hb : b ∈ visited
      · obtain ⟨visited', hpath', hlt⟩ := hpath.shorter hb
        exact ih visited'.length (hn ▸ hlt) visited' hpath' rfl
      · exact ⟨visited, hpath, hb⟩

theorem Reachable.step {f : Function} {b i c : Nat} {op : Operation} (h : f.Reachable b)
    (hedge : f.Edge b i op c) : f.Reachable c :=
  ⟨_, .step h.choose_spec hedge⟩

end Function

/-! ## What a thread does along a path -/

/-- A block on a thread's way: which of its operations is the `Enqueue` the thread takes,
    and what the rest of the machine does before the next block starts. -/
structure Visit (W : Type) where
  block : Nat
  enqueue : Nat
  between : W → W

/-- The visits lead from a block to another. -/
def Function.IsRoute (f : Function) {W : Type} : Nat → List (Visit W) → Nat → Prop
  | b, [], last => b = last
  | b, visit :: visits, last =>
      visit.block = b ∧ ∃ op c, f.Edge b visit.enqueue op c ∧ f.IsRoute c visits last

section

variable {W : Type} (m : Machine W) (table : RegisterTable)

/-- The state in which the next block starts: the successor's registers have the values
    that the `Enqueue` passes on. -/
def Function.leave (f : Function) (σ : State W) (visit : Visit W) : State W :=
  let ops := f.operationsOf visit.block
  let atEnqueue := execOperations m table σ (ops.take visit.enqueue)
  match ops[visit.enqueue]? with
  | some op =>
      ⟨fun r => atEnqueue.locals (op.mapOriginalToRenamedRegisterIndex r),
        visit.between (execOperations m table σ ops).world⟩
  | none => σ

/-- The source values of every operation of every block on the way, the last block
    included. -/
def Function.traceRoute (f : Function) : State W → List (Visit W) → Nat → List (List (List Value))
  | σ, [], last => [traceOperations m table σ (f.operationsOf last)]
  | σ, visit :: visits, last =>
      traceOperations m table σ (f.operationsOf visit.block) ::
        f.traceRoute (f.leave m table σ visit) visits last

end

/-! ## Frame conditions -/

section

variable {W : Type} {m : Machine W} {table : RegisterTable}

theorem writeDestinations_of_not_written {r : Nat} (dsts : List DestinationOperand) :
    ∀ {results : List Nat} {locals : Nat → Nat},
      r ∉ dsts.filterMap DestinationOperand.register? →
      writeDestinations table dsts results locals r = locals r := by
  induction dsts with
  | nil => exact fun _ => rfl
  | cons dst dsts ih =>
      intro results locals hr
      cases dst with
      | fifo f =>
          rw [List.filterMap_cons] at hr
          exact ih hr
      | register r' =>
          rw [List.filterMap_cons] at hr
          have hne : r ≠ r' := fun heq => hr (heq ▸ List.mem_cons_self)
          have hr' := fun hmem => hr (List.mem_cons_of_mem _ hmem)
          rw [writeDestinations, ih hr']
          split
          · exact Function.update_of_ne hne _ _
          · rfl

theorem execOperation_of_not_written {σ : State W} {op : Operation} {r : Nat}
    (hr : r ∉ op.writes) : (execOperation m table σ op).locals r = σ.locals r :=
  writeDestinations_of_not_written _ hr

theorem execOperations_take_succ {σ : State W} {ops : List Operation} {i : Nat} {op : Operation}
    (hi : ops[i]? = some op) :
    execOperations m table σ (ops.take (i + 1)) =
      execOperation m table (execOperations m table σ (ops.take i)) op := by
  rw [List.take_add_one, hi, execOperations, List.foldl_append]
  rfl

/-- A register keeps its value between two positions if nothing between them writes it. -/
theorem execOperations_take_of_not_written {σ : State W} {ops : List Operation} {r i : Nat} :
    ∀ {j : Nat}, i ≤ j →
      (∀ k op, i ≤ k → k < j → ops[k]? = some op → r ∉ op.writes) →
      (execOperations m table σ (ops.take j)).locals r =
        (execOperations m table σ (ops.take i)).locals r := by
  intro j hij
  induction j, hij using Nat.le_induction with
  | base => exact fun _ => rfl
  | succ j hij ih =>
      intro hnot
      have hrest := ih fun k op hk hkj => hnot k op hk (by omega)
      cases hop : ops[j]? with
      | none =>
          rw [List.take_add_one, hop, Option.toList_none, List.append_nil, hrest]
      | some op =>
          rw [execOperations_take_succ hop,
            execOperation_of_not_written (hnot j op hij (by omega) hop), hrest]

/-- Two lists of operations that read the same values, one by one, do the same. -/
theorem trace_exec_map_eq {σ : State W} {ops : List Operation} (g : Operation → Operation)
    (hinfo : ∀ op, (g op).info table = op.info table) (hdst : ∀ op, (g op).dst = op.dst)
    (hsrc : ∀ i op, ops[i]? = some op →
      evalSources m table (execOperations m table σ (ops.take i)) (g op) =
        evalSources m table (execOperations m table σ (ops.take i)) op) :
    traceOperations m table σ (ops.map g) = traceOperations m table σ ops ∧
      ∀ i, execOperations m table σ ((ops.map g).take i) =
        execOperations m table σ (ops.take i) := by
  induction ops generalizing σ with
  | nil => exact ⟨rfl, fun i => rfl⟩
  | cons op ops ih =>
      have hhead : evalSources m table σ (g op) = evalSources m table σ op := hsrc 0 op rfl
      have hexec : execOperation m table σ (g op) = execOperation m table σ op := by
        rw [execOperation, hinfo, hhead, hdst]
        rfl
      obtain ⟨htrace, hrest⟩ := ih fun i op' hi => hsrc (i + 1) op' hi
      refine ⟨?_, fun i => ?_⟩
      · rw [List.map_cons, traceOperations, traceOperations, hhead, hexec, htrace]
      · cases i with
        | zero => rfl
        | succ i =>
            rw [List.map_cons, List.take_succ_cons, List.take_succ_cons]
            have := hrest i
            simp only [execOperations, List.foldl_cons, hexec] at this ⊢
            exact this

end

end Kanagawa.IR
