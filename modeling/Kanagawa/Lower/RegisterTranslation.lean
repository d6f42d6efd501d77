/-
  Kanagawa.Lower.RegisterTranslation

  How registers are translated between the blocks of a function after renaming
  (`control_flow_graph.cpp`, `ControlFlowGraphPrePipeline`).

  An edge has the renaming table of its `Enqueue` and the inverse of it; registers
  outside of the tables keep their index.  The registers that the successor writes
  have no translation to the predecessor, and the original versions of registers that
  the predecessor writes have none to the successor.
-/
import Kanagawa.IR.ControlFlow
import Kanagawa.Lower.RenameSound

namespace Kanagawa.Lower

open IR Lib.Except Lib.NatMap

/-! ## The control-flow graph -/

/-- The registers that a block writes, and the original versions of them. -/
structure WrittenRegisters where
  renamed : List Nat := []
  original : List Nat := []

/-- The tables of each pair of a predecessor and a successor. -/
abbrev EdgeTables := List ((Nat × Nat) × RegisterIndexMap)

/-- `ControlFlowGraphPrePipeline`.  The blocks are numbered. -/
structure ControlFlowGraph where
  successorToPredecessorTable : EdgeTables := []
  predecessorToSuccessorTable : EdgeTables := []
  written : List WrittenRegisters := []

/-- `SafeInsert` into the tables: there is one `Enqueue` for each edge. -/
def insertEdge (tables : EdgeTables) (key : Nat × Nat) (table : RegisterIndexMap) :
    Except Failure EdgeTables :=
  if (tables.lookup key).isSome then .error (.runtimeError "Item already exists in a map")
  else .ok ((key, table) :: tables)

/-- The loop body over the destination operands. -/
def recordWrite (registerTable : RegisterTable) (renamed : List Nat) :
    DestinationOperand → Except Failure (List Nat)
  | .register registerIndex => do
      let registerType := (registerTable.desc registerIndex).type
      assert (registerType != .pipeline)
      if registerType.isLocal then
        if renamed.contains registerIndex then
          .error (.runtimeError "Item already exists in a set")
        else return renamed ++ [registerIndex]
      else return renamed
  | .fifo _ => .ok renamed

/-- The callback for the operations of a block. -/
def visitOperation (registerTable : RegisterTable) (function : Function) (block : Nat)
    (s : ControlFlowGraph × WrittenRegisters) (op : Operation) :
    Except Failure (ControlFlowGraph × WrittenRegisters) := do
  let renamed ← op.dst.foldlM (recordWrite registerTable) s.2.renamed
  assert (op.successorBlock.isNone || op.isEnqueue)
  match function.successorOf op with
  | none => return (s.1, ⟨renamed, s.2.original⟩)
  | some successor =>
      let toPredecessor ←
        insertEdge s.1.successorToPredecessorTable (block, successor) op.renamingTable
      let toSuccessor ←
        insertEdge s.1.predecessorToSuccessorTable (block, successor) op.reverseRenamingTable
      return (⟨toPredecessor, toSuccessor, s.1.written⟩,
        ⟨renamed, s.2.original ++ renamed.filterMap (op.reverseRenamingTable[·]?)⟩)

/-- The operations of a block that the graph is built from. -/
def visitedOperations (function : Function) (mode : OperationEnumerationMode) (b : Nat) :
    List Operation :=
  match function.basicBlocks[b]? with
  | some basicBlock => basicBlock.operationsIn mode
  | none => []

/-- The loop body over the blocks. -/
def visitBlock (registerTable : RegisterTable) (function : Function)
    (mode : OperationEnumerationMode) (cfg : ControlFlowGraph) (block : Nat) :
    Except Failure ControlFlowGraph := do
  let (cfg, written) ← (visitedOperations function mode block).foldlM
    (visitOperation registerTable function block) (cfg, {})
  return { cfg with written := cfg.written ++ [written] }

/-- The constructor of `ControlFlowGraphPrePipeline`. -/
def controlFlowGraphPrePipeline (registerTable : RegisterTable) (function : Function)
    (mode : OperationEnumerationMode) : Except Failure ControlFlowGraph :=
  (List.range function.basicBlocks.length).foldlM (visitBlock registerTable function mode) {}

namespace ControlFlowGraph

/-- `_renamedWrittenRegisters[block]`. -/
def renamedWritten (cfg : ControlFlowGraph) (block : Nat) : List Nat :=
  (cfg.written[block]?.getD {}).renamed

/-- `_originalWrittenRegisters[block]`. -/
def originalWritten (cfg : ControlFlowGraph) (block : Nat) : List Nat :=
  (cfg.written[block]?.getD {}).original

/-- `RenameLocalImpl`. -/
def renameLocalImpl (predecessor successor registerIndexInSource : Nat)
    (registersToSkip : List Nat) (tables : EdgeTables) : Except Failure (Option Nat) :=
  if registersToSkip.contains registerIndexInSource then .ok none
  else
    match tables.lookup (predecessor, successor) with
    | none => .error (.runtimeError "Failed to lookup value in a map")
    | some renamingTable =>
        match renamingTable[registerIndexInSource]? with
        | some registerIndex => .ok (some registerIndex)
        | none => .ok (some registerIndexInSource)

/-- `RenameLocalToPredecessor`. -/
def renameLocalToPredecessor (cfg : ControlFlowGraph) (predecessor successor r : Nat) :
    Except Failure (Option Nat) :=
  renameLocalImpl predecessor successor r (cfg.renamedWritten successor)
    cfg.successorToPredecessorTable

/-- `RenameLocalToSuccessor`. -/
def renameLocalToSuccessor (cfg : ControlFlowGraph) (predecessor successor r : Nat) :
    Except Failure (Option Nat) :=
  renameLocalImpl predecessor successor r (cfg.originalWritten predecessor)
    cfg.predecessorToSuccessorTable

end ControlFlowGraph

/-! ## What the graph holds -/

theorem insertEdge_ok {tables tables' : EdgeTables} {key : Nat × Nat} {table : RegisterIndexMap}
    (h : insertEdge tables key table = .ok tables') :
    tables'.lookup key = some table ∧
      ∀ k t, tables.lookup k = some t → tables'.lookup k = some t := by
  rw [insertEdge] at h
  split at h
  · exact nomatch h
  · next hnone =>
      obtain rfl := Except.ok.inj h
      refine ⟨List.lookup_cons_self, fun k t hk => ?_⟩
      have hne : k ≠ key := by
        rintro rfl
        exact hnone (hk ▸ rfl)
      rw [List.lookup_cons, beq_false_of_ne hne]
      exact hk

/-- What is in one graph is in another. -/
structure ControlFlowGraph.Grows (cfg cfg' : ControlFlowGraph) : Prop where
  toPredecessor : ∀ k t, cfg.successorToPredecessorTable.lookup k = some t →
    cfg'.successorToPredecessorTable.lookup k = some t
  toSuccessor : ∀ k t, cfg.predecessorToSuccessorTable.lookup k = some t →
    cfg'.predecessorToSuccessorTable.lookup k = some t

theorem ControlFlowGraph.Grows.trans {a b c : ControlFlowGraph} (h : a.Grows b) (h' : b.Grows c) :
    a.Grows c :=
  ⟨fun k t hk => h'.toPredecessor k t (h.toPredecessor k t hk),
    fun k t hk => h'.toSuccessor k t (h.toSuccessor k t hk)⟩

/-- The graph has the tables of an `Enqueue` to another block of the function. -/
def ControlFlowGraph.HasEdge (cfg : ControlFlowGraph) (function : Function) (block : Nat)
    (op : Operation) : Prop :=
  ∀ c, function.successorOf op = some c → op.isEnqueue = true ∧
    cfg.successorToPredecessorTable.lookup (block, c) = some op.renamingTable ∧
    cfg.predecessorToSuccessorTable.lookup (block, c) = some op.reverseRenamingTable

theorem ControlFlowGraph.HasEdge.grow {cfg cfg' : ControlFlowGraph} {function : Function}
    {block : Nat} {op : Operation} (h : cfg.HasEdge function block op) (hgrow : cfg.Grows cfg') :
    cfg'.HasEdge function block op := fun c hc =>
  ⟨(h c hc).1, hgrow.toPredecessor _ _ (h c hc).2.1, hgrow.toSuccessor _ _ (h c hc).2.2⟩

/-- A register is the original version of one in the tables of some operation. -/
def RenamedBy (ops : List Operation) (o : Nat) : Prop :=
  ∃ op ∈ ops, op.isEnqueue = true ∧ ∃ n : Nat, op.reverseRenamingTable[n]? = some o

theorem visitOperation_ok {registerTable : RegisterTable} {function : Function} {block : Nat}
    {s s' : ControlFlowGraph × WrittenRegisters} {op : Operation}
    (h : visitOperation registerTable function block s op = .ok s') :
    s.1.Grows s'.1 ∧ s'.1.written = s.1.written ∧ s'.1.HasEdge function block op ∧
      ∀ o ∈ s'.2.original, o ∈ s.2.original ∨ RenamedBy [op] o := by
  obtain ⟨renamed, -, h⟩ := bind_eq_ok_iff.mp h
  obtain ⟨_, hassert, h⟩ := bind_eq_ok_iff.mp h
  split at h
  · next hnone =>
      obtain rfl := Except.ok.inj h
      exact ⟨⟨fun _ _ hk => hk, fun _ _ hk => hk⟩, rfl,
        fun c hc => (by cases hnone.symm.trans hc), fun o ho => .inl ho⟩
  · next successor hsuccessor =>
      have henqueue : op.isEnqueue = true := by
        rw [Function.successorOf, Option.filter_eq_some_iff] at hsuccessor
        rw [hsuccessor.1] at hassert
        cases he : op.isEnqueue with
        | true => rfl
        | false =>
            rw [he] at hassert
            cases hassert
      obtain ⟨toPredecessor, hto, h⟩ := bind_eq_ok_iff.mp h
      obtain ⟨toSuccessor, hback, h⟩ := bind_eq_ok_iff.mp h
      obtain rfl := Except.ok.inj h
      obtain ⟨hto, hgrow⟩ := insertEdge_ok hto
      obtain ⟨hback, hgrow'⟩ := insertEdge_ok hback
      refine ⟨⟨hgrow, hgrow'⟩, rfl, fun c hc => ?_, fun o ho => ?_⟩
      · obtain rfl : successor = c := Option.some.inj (hsuccessor.symm.trans hc)
        exact ⟨henqueue, hto, hback⟩
      · rcases List.mem_append.mp ho with ho | ho
        · exact .inl ho
        · obtain ⟨n, -, hn⟩ := List.mem_filterMap.mp ho
          exact .inr ⟨op, List.mem_singleton_self _, henqueue, n, hn⟩

theorem visitOperations_ok {registerTable : RegisterTable} {function : Function} {block : Nat}
    (ops : List Operation) : ∀ {s s' : ControlFlowGraph × WrittenRegisters},
    ops.foldlM (visitOperation registerTable function block) s = .ok s' →
    s.1.Grows s'.1 ∧ s'.1.written = s.1.written ∧ (∀ op ∈ ops, s'.1.HasEdge function block op) ∧
      ∀ o ∈ s'.2.original, o ∈ s.2.original ∨ RenamedBy ops o := by
  induction ops with
  | nil =>
      intro s s' h
      obtain rfl := Except.ok.inj h
      exact ⟨⟨fun _ _ hk => hk, fun _ _ hk => hk⟩, rfl, nofun, fun o ho => .inl ho⟩
  | cons op ops ih =>
      intro s s' h
      rw [List.foldlM_cons] at h
      obtain ⟨s1, hs1, h⟩ := bind_eq_ok_iff.mp h
      obtain ⟨hgrow, hwritten, hedge, horiginal⟩ := visitOperation_ok hs1
      obtain ⟨hgrow', hwritten', hedges, horiginals⟩ := ih h
      refine ⟨hgrow.trans hgrow', hwritten'.trans hwritten, fun op' hop' => ?_, fun o ho => ?_⟩
      · rcases List.mem_cons.mp hop' with rfl | hop'
        · exact hedge.grow hgrow'
        · exact hedges op' hop'
      · rcases horiginals o ho with ho | ⟨op', hop', hn⟩
        · rcases horiginal o ho with ho | ⟨op', hop', hn⟩
          · exact .inl ho
          · exact .inr ⟨op', List.mem_cons.mpr (.inl (List.mem_singleton.mp hop')), hn⟩
        · exact .inr ⟨op', List.mem_cons_of_mem _ hop', hn⟩

theorem visitBlocks_ok {registerTable : RegisterTable} {function : Function}
    {mode : OperationEnumerationMode} (blocks : List Nat) : ∀ {cfg cfg' : ControlFlowGraph},
    blocks.foldlM (visitBlock registerTable function mode) cfg = .ok cfg' →
    cfg.Grows cfg' ∧
      (∀ b ∈ blocks, ∀ op ∈ visitedOperations function mode b, cfg'.HasEdge function b op) ∧
      ∃ written, cfg'.written = cfg.written ++ written ∧
        List.Forall₂ (fun b (w : WrittenRegisters) =>
          ∀ o ∈ w.original, RenamedBy (visitedOperations function mode b) o) blocks written := by
  induction blocks with
  | nil =>
      intro cfg cfg' h
      obtain rfl := Except.ok.inj h
      exact ⟨⟨fun _ _ hk => hk, fun _ _ hk => hk⟩, nofun, [], (List.append_nil _).symm, .nil⟩
  | cons b blocks ih =>
      intro cfg cfg' h
      rw [List.foldlM_cons] at h
      obtain ⟨cfg1, hcfg1, h⟩ := bind_eq_ok_iff.mp h
      obtain ⟨⟨cfg0, written0⟩, hops, hcfg1⟩ := bind_eq_ok_iff.mp hcfg1
      obtain rfl := Except.ok.inj hcfg1
      obtain ⟨hgrow, hwritten, hedges, horiginal⟩ := visitOperations_ok _ hops
      obtain ⟨hgrow', hedges', written, hwritten', hall⟩ := ih h
      have hgrow1 : cfg0.Grows cfg' := ⟨hgrow'.toPredecessor, hgrow'.toSuccessor⟩
      refine ⟨hgrow.trans hgrow1, fun b' hb' op hop => ?_, written0 :: written, ?_, .cons ?_ hall⟩
      · rcases List.mem_cons.mp hb' with rfl | hb'
        · exact (hedges op hop).grow hgrow1
        · exact hedges' b' hb' op hop
      · rw [hwritten', ← hwritten, List.append_assoc]
        rfl
      · exact fun o ho => (horiginal o ho).resolve_left List.not_mem_nil

/-- What a graph says of the edges and of the written registers. -/
theorem controlFlowGraph_ok {registerTable : RegisterTable} {function : Function}
    {mode : OperationEnumerationMode} {cfg : ControlFlowGraph}
    (h : controlFlowGraphPrePipeline registerTable function mode = .ok cfg) (b : Nat) :
    (∀ op ∈ visitedOperations function mode b, cfg.HasEdge function b op) ∧
      ∀ o ∈ cfg.originalWritten b, RenamedBy (visitedOperations function mode b) o := by
  obtain ⟨-, hedges, written, hwritten, hall⟩ := visitBlocks_ok _ h
  rw [List.nil_append] at hwritten
  by_cases hb : b < function.basicBlocks.length
  · refine ⟨hedges b (List.mem_range.mpr hb), ?_⟩
    have hlt : b < written.length := by rwa [← hall.length_eq, List.length_range]
    have hget := hall.get (by rwa [List.length_range]) hlt
    rw [ControlFlowGraph.originalWritten, hwritten, List.getElem?_eq_getElem hlt]
    simpa using hget
  · have hnone : visitedOperations function mode b = [] := by
      rw [visitedOperations, List.getElem?_eq_none (not_lt.mp hb)]
    have hlength : written.length = function.basicBlocks.length := by
      rw [← hall.length_eq, List.length_range]
    refine ⟨fun op hop => (List.not_mem_nil (hnone ▸ hop)).elim, fun o ho => ?_⟩
    rw [ControlFlowGraph.originalWritten, hwritten,
      List.getElem?_eq_none (hlength ▸ not_lt.mp hb)] at ho
    exact (List.not_mem_nil ho).elim

/-! ## Renamed operations -/

/-- What renaming makes of operations, with the registers written `before` them: a table maps
    original registers to new ones that were written, and what is read is an original register or
    was written. -/
structure RenamedOperations (base : Nat) (before : List Nat) (ops : List Operation) : Prop where
  tables : ∀ op ∈ ops, op.isEnqueue = true → InverseTables op
  snapshot : ∀ {i : Nat} {op : Operation}, ops[i]? = some op → op.isEnqueue = true →
    ∀ {o n : Nat}, op.renamingTable[o]? = some n →
      o < base ∧ base ≤ n ∧ n ∈ before ++ (ops.take i).flatMap Operation.writes
  reads : ∀ {i : Nat} {op : Operation}, ops[i]? = some op → ∀ r ∈ op.reads,
    r < base ∨ r ∈ before ++ (ops.take i).flatMap Operation.writes

theorem RenamedOperations.nil (base : Nat) (before : List Nat) : RenamedOperations base before [] :=
  ⟨nofun, (fun h => nomatch h), (fun h => nomatch h)⟩

theorem RenamedOperations.append {base : Nat} {before : List Nat} {ops ops' : List Operation}
    (h : RenamedOperations base before ops)
    (h' : RenamedOperations base (before ++ ops.flatMap Operation.writes) ops') :
    RenamedOperations base before (ops ++ ops') := by
  have hlate : ∀ {i : Nat}, ops.length ≤ i → before ++ ((ops ++ ops').take i).flatMap Operation.writes
      = (before ++ ops.flatMap Operation.writes)
        ++ (ops'.take (i - ops.length)).flatMap Operation.writes := by
    intro i hi
    rw [List.take_append, List.take_of_length_le hi, List.flatMap_append, List.append_assoc]
  refine ⟨fun op hop => ?_, fun {i op} hi he {o n} hn => ?_, fun {i op} hi r hr => ?_⟩
  · exact (List.mem_append.mp hop).elim (h.tables op) (h'.tables op)
  · rcases lt_or_ge i ops.length with hlt | hge
    · rw [List.getElem?_append_left hlt] at hi
      rw [List.take_append_of_le_length hlt.le]
      exact h.snapshot hi he hn
    · rw [List.getElem?_append_right hge] at hi
      rw [hlate hge]
      exact h'.snapshot hi he hn
  · rcases lt_or_ge i ops.length with hlt | hge
    · rw [List.getElem?_append_left hlt] at hi
      rw [List.take_append_of_le_length hlt.le]
      exact h.reads hi r hr
    · rw [List.getElem?_append_right hge] at hi
      rw [hlate hge]
      exact h'.reads hi r hr

/-- The renaming table leads to written registers. -/
def WrittenValues (s : RenameState) (before : List Nat) : Prop :=
  ∀ o n : Nat, s.renameTable[o]? = some n → n ∈ before

theorem renameDestinations_values (dsts : List DestinationOperand) :
    ∀ {s s' : RenameState} {dsts' : List DestinationOperand} {before : List Nat},
      renameDestinations s dsts = .ok (dsts', s') → WrittenValues s before →
      WrittenValues s' (before ++ dsts'.filterMap DestinationOperand.register?) := by
  induction dsts with
  | nil =>
      intro s s' dsts' before h hs
      obtain ⟨rfl, rfl⟩ := Prod.mk.inj (Except.ok.inj h)
      simpa using hs
  | cons dst dsts ih =>
      intro s s' dsts' before h hs
      obtain ⟨⟨dst', s1⟩, hdst, h⟩ := bind_eq_ok_iff.mp h
      obtain ⟨⟨rest, s2⟩, hrest, h⟩ := bind_eq_ok_iff.mp h
      obtain ⟨rfl, rfl⟩ := Prod.mk.inj (Except.ok.inj h)
      have hs1 : WrittenValues s1 (before ++ [dst'].filterMap DestinationOperand.register?) := by
        cases dst with
        | fifo f =>
            obtain ⟨rfl, rfl⟩ := Prod.mk.inj (Except.ok.inj hdst)
            exact fun o n hn => List.mem_append_left _ (hs o n hn)
        | register r =>
            simp only [renameDestination] at hdst
            split at hdst
            · obtain ⟨rfl, rfl⟩ := Prod.mk.inj (Except.ok.inj hdst)
              intro o n hn
              rw [getElem?_insert] at hn
              split at hn
              · obtain rfl := Option.some.inj hn
                exact List.mem_append_right _ List.mem_cons_self
              · exact List.mem_append_left _ (hs o n hn)
            · obtain ⟨_, -, hdst⟩ := bind_eq_ok_iff.mp hdst
              obtain ⟨rfl, rfl⟩ := Prod.mk.inj (Except.ok.inj hdst)
              exact fun o n hn => List.mem_append_left _ (hs o n hn)
      have hall := ih hrest hs1
      rwa [List.append_assoc, ← List.filterMap_append, List.singleton_append] at hall

theorem renameOperation_renamed {base : RegisterTable} {s s' : RenameState} {op op' : Operation}
    {before : List Nat} (h : RenameInvariant base s) (hop : OperationInTable base op)
    (hs : WrittenValues s before) (hok : renameOperation s op = .ok (op', s')) :
    RenamedOperations base.length before [op'] ∧ WrittenValues s' (before ++ op'.writes) := by
  obtain ⟨op1, hrec, -, -, -, hsrc, hdst, -, htables⟩ := recordTables_spec h hop.noTable
  simp only [renameOperation, hrec, ok_bind, hdst] at hok
  obtain ⟨⟨dsts', s1⟩, hdsts, hok⟩ := bind_eq_ok_iff.mp hok
  obtain ⟨rfl, rfl⟩ := Prod.mk.inj (Except.ok.inj hok)
  refine ⟨⟨fun op' hop' he => ?_, fun {i op'} hi he {o n} hn => ?_, fun {i op'} hi r hr => ?_⟩,
    renameDestinations_values _ hdsts hs⟩
  · obtain rfl := List.mem_singleton.mp hop'
    exact (htables he).2
  · rcases i with _ | i
    · obtain rfl := Option.some.inj hi
      have htable : op1.renamingTable = s.renameTable := (htables he).1
      have hn' : s.renameTable[o]? = some n := htable ▸ hn
      exact ⟨(h.key hn').1, (h.value hn').1, List.mem_append_left _ (hs o n hn')⟩
    · cases hi
  · rcases i with _ | i
    · obtain rfl := Option.some.inj hi
      obtain ⟨srcOp, hmem, hr⟩ := List.mem_filterMap.mp hr
      obtain ⟨srcOp, hsrcOp, rfl⟩ := List.mem_map.mp hmem
      cases srcOp with
      | register q =>
          obtain rfl := Option.some.inj hr
          cases hq : s.renameTable[q]? with
          | none =>
              rw [getD_of_none hq]
              exact .inl (hop.src (hsrc ▸ hsrcOp))
          | some n =>
              rw [getD_of_some hq]
              exact .inr (List.mem_append_left _ (hs q n hq))
      | _ => cases hr
    · cases hi

theorem renameOperations_renamed {base : RegisterTable} (ops : List Operation) :
    ∀ {s s' : RenameState} {ops' : List Operation} {before : List Nat}, RenameInvariant base s →
      (∀ op ∈ ops, OperationInTable base op) → WrittenValues s before →
      renameOperations s ops = .ok (ops', s') →
      RenamedOperations base.length before ops' ∧
        WrittenValues s' (before ++ ops'.flatMap Operation.writes) ∧ RenameInvariant base s' := by
  induction ops with
  | nil =>
      intro s s' ops' before h _ hs hok
      obtain ⟨rfl, rfl⟩ := Prod.mk.inj (Except.ok.inj hok)
      exact ⟨.nil _ _, by simpa using hs, h⟩
  | cons op ops ih =>
      intro s s' ops' before h hops hs hok
      obtain ⟨op1, s1, hok1, hspec⟩ := renameOperation_spec h (hops op List.mem_cons_self)
      obtain ⟨hren, hs1⟩ := renameOperation_renamed h (hops op List.mem_cons_self) hs hok1
      simp only [renameOperations, hok1, ok_bind] at hok
      obtain ⟨⟨ops1, s2⟩, hok2, hok⟩ := bind_eq_ok_iff.mp hok
      obtain ⟨rfl, rfl⟩ := Prod.mk.inj (Except.ok.inj hok)
      obtain ⟨hrens, hs2, hinv⟩ :=
        ih hspec.invariant (fun o ho => hops o (List.mem_cons_of_mem _ ho)) hs1 hok2
      refine ⟨hren.append (by simpa using hrens), ?_, hinv⟩
      rwa [List.flatMap_cons, ← List.append_assoc]

theorem renameStages_renamed {base : RegisterTable} (stages : List Stage) :
    ∀ {s s' : RenameState} {stages' : List Stage} {before : List Nat}, RenameInvariant base s →
      (∀ op ∈ stages.flatMap Stage.operations, OperationInTable base op) →
      WrittenValues s before → renameStages s stages = .ok (stages', s') →
      RenamedOperations base.length before (stages'.flatMap Stage.operations) := by
  induction stages with
  | nil =>
      intro s s' stages' before _ _ _ hok
      obtain ⟨rfl, rfl⟩ := Prod.mk.inj (Except.ok.inj hok)
      exact .nil _ _
  | cons stage stages ih =>
      intro s s' stages' before h hops hs hok
      rw [List.flatMap_cons] at hops
      obtain ⟨⟨ops1, s1⟩, hok1, hok⟩ := bind_eq_ok_iff.mp hok
      obtain ⟨⟨stages1, s2⟩, hok2, hok⟩ := bind_eq_ok_iff.mp hok
      obtain ⟨rfl, rfl⟩ := Prod.mk.inj (Except.ok.inj hok)
      obtain ⟨hren, hs1, hinv⟩ := renameOperations_renamed stage.operations h
        (fun o ho => hops o (List.mem_append_left _ ho)) hs hok1
      rw [List.flatMap_cons]
      exact hren.append (ih hinv (fun o ho => hops o (List.mem_append_right _ ho)) hs1 hok2)

theorem rename_renamed {base table table' : RegisterTable} (hgrow : base <+: table)
    {basicBlock basicBlock' : BasicBlock}
    (hops : ∀ op ∈ basicBlock.allOperations, OperationInTable base op)
    (hok : rename table basicBlock = .ok (basicBlock', table')) :
    RenamedOperations base.length [] basicBlock'.allOperations := by
  unfold BasicBlock.allOperations at hops
  obtain ⟨⟨start, s1⟩, hok1, hok⟩ := bind_eq_ok_iff.mp hok
  obtain ⟨⟨operations, s2⟩, hok2, hok⟩ := bind_eq_ok_iff.mp hok
  obtain ⟨⟨stages, s3⟩, hok3, hok⟩ := bind_eq_ok_iff.mp hok
  obtain ⟨rfl, rfl⟩ := Prod.mk.inj (Except.ok.inj hok)
  have hs : WrittenValues ⟨table, ∅⟩ [] := fun o n hn => by simp at hn
  obtain ⟨hren1, hs1, hinv1⟩ := renameOperations_renamed _ (RenameInvariant.start hgrow)
    (fun o ho => hops o (List.mem_append_left _ (List.mem_append_left _ ho))) hs hok1
  obtain ⟨hren2, hs2, hinv2⟩ := renameOperations_renamed _ hinv1
    (fun o ho => hops o (List.mem_append_left _ (List.mem_append_right _ ho))) hs1 hok2
  have hren3 := renameStages_renamed _ hinv2
    (fun o ho => hops o (List.mem_append_right _ ho)) hs2 hok3
  refine (hren1.append hren2).append ?_
  rwa [List.flatMap_append, ← List.append_assoc]

/-- `Rename` makes renamed operations of every block. -/
theorem renameBlocks_renamed {base : RegisterTable} (basicBlocks : List BasicBlock)
    (hops : ∀ b ∈ basicBlocks, ∀ op ∈ b.allOperations, OperationInTable base op) :
    ∀ {table table' : RegisterTable} {basicBlocks' : List BasicBlock}, base <+: table →
      renameBlocks table basicBlocks = .ok (basicBlocks', table') →
      ∀ b ∈ basicBlocks', RenamedOperations base.length [] b.allOperations := by
  induction basicBlocks with
  | nil =>
      intro table table' basicBlocks' _ hok
      obtain ⟨rfl, rfl⟩ := Prod.mk.inj (Except.ok.inj hok)
      exact nofun
  | cons b bs ih =>
      intro table table' basicBlocks' hgrow hok
      obtain ⟨⟨b', table1⟩, hb, hok⟩ := bind_eq_ok_iff.mp hok
      obtain ⟨⟨bs', table2⟩, hbs, hok⟩ := bind_eq_ok_iff.mp hok
      obtain ⟨rfl, rfl⟩ := Prod.mk.inj (Except.ok.inj hok)
      have hgrow1 : base <+: table1 := by
        obtain ⟨b1, s1, hok1, hspec⟩ := rename_spec hgrow (hops b List.mem_cons_self)
        obtain ⟨-, rfl⟩ := Prod.mk.inj (Except.ok.inj (hok1.symm.trans hb))
        exact hgrow.trans hspec.grows
      intro c hc
      rcases List.mem_cons.mp hc with rfl | hc
      · exact rename_renamed hgrow (hops b List.mem_cons_self) hb
      · exact ih (fun d hd => hops d (List.mem_cons_of_mem _ hd)) hgrow1 hbs c hc

/-- So the graphs of a function are built from renamed operations. -/
theorem visitedOperations_renamed {base table' : RegisterTable}
    {basicBlocks basicBlocks' : List BasicBlock} (start : Nat)
    (hops : ∀ b ∈ basicBlocks, ∀ op ∈ b.allOperations, OperationInTable base op)
    (hok : renameBlocks base basicBlocks = .ok (basicBlocks', table')) (b : Nat) :
    RenamedOperations base.length [] (visitedOperations ⟨start, basicBlocks'⟩ .unscheduled b) := by
  rw [visitedOperations]
  cases hb : basicBlocks'[b]? with
  | none => exact .nil _ _
  | some basicBlock =>
      exact renameBlocks_renamed basicBlocks hops (List.prefix_refl _) hok basicBlock
        (List.mem_of_getElem? hb)

/-! ## Translation -/

section

variable {registerTable : RegisterTable} {function : Function} {mode : OperationEnumerationMode}
  {cfg : ControlFlowGraph} {base b c : Nat} {op : Operation}

/-- The registers that are live at the start of a block: a path leads from there to an operation
    that reads the register, under the names that it has in the blocks of the path. -/
inductive ControlFlowGraph.LiveIn (cfg : ControlFlowGraph) (function : Function)
    (mode : OperationEnumerationMode) : Nat → Nat → Prop
  | read {b i r : Nat} {op : Operation} : (visitedOperations function mode b)[i]? = some op →
      r ∈ op.reads →
      r ∉ ((visitedOperations function mode b).take i).flatMap Operation.writes →
      cfg.LiveIn function mode b r
  | across {b i c r r' : Nat} {op : Operation} :
      (visitedOperations function mode b)[i]? = some op → function.successorOf op = some c →
      cfg.LiveIn function mode c r → cfg.renameLocalToPredecessor b c r = .ok (some r') →
      r' ∉ ((visitedOperations function mode b).take i).flatMap Operation.writes →
      cfg.LiveIn function mode b r'

theorem toPredecessor_eq (h : cfg.HasEdge function b op) (hc : function.successorOf op = some c)
    (r : Nat) : cfg.renameLocalToPredecessor b c r = .ok (if r ∈ cfg.renamedWritten c then none
      else some (op.mapOriginalToRenamedRegisterIndex r)) := by
  rw [ControlFlowGraph.renameLocalToPredecessor, ControlFlowGraph.renameLocalImpl, (h c hc).2.1,
    Operation.mapOriginalToRenamedRegisterIndex, optionallyMapIndex, getD_eq]
  by_cases hr : r ∈ cfg.renamedWritten c
  · rw [if_pos (List.contains_iff_mem.mpr hr), if_pos hr]
  · rw [if_neg fun hr' => hr (List.contains_iff_mem.mp hr'), if_neg hr]
    cases hx : op.renamingTable[r]? with
    | none => simp only [hx, Option.getD_none]
    | some n => simp only [hx, Option.getD_some]

theorem toSuccessor_eq (h : cfg.HasEdge function b op) (hc : function.successorOf op = some c)
    (r : Nat) : cfg.renameLocalToSuccessor b c r = .ok (if r ∈ cfg.originalWritten b then none
      else some (op.mapRenamedToOriginalRegisterIndex r)) := by
  rw [ControlFlowGraph.renameLocalToSuccessor, ControlFlowGraph.renameLocalImpl, (h c hc).2.2,
    Operation.mapRenamedToOriginalRegisterIndex, optionallyMapIndex, getD_eq]
  by_cases hr : r ∈ cfg.originalWritten b
  · rw [if_pos (List.contains_iff_mem.mpr hr), if_pos hr]
  · rw [if_neg fun hr' => hr (List.contains_iff_mem.mp hr'), if_neg hr]
    cases hx : op.reverseRenamingTable[r]? with
    | none => simp only [hx, Option.getD_none]
    | some n => simp only [hx, Option.getD_some]

/-- Original registers are translated injectively. -/
theorem RenamedOperations.map_injective {ops : List Operation} {before : List Nat}
    (h : RenamedOperations base before ops) (hop : op ∈ ops) (he : op.isEnqueue = true) {r s : Nat}
    (hr : r < base) (hs : s < base)
    (heq : op.mapOriginalToRenamedRegisterIndex r = op.mapOriginalToRenamedRegisterIndex s) :
    r = s := by
  obtain ⟨i, hi, rfl⟩ := List.getElem_of_mem hop
  have hsnap := fun {o n : Nat} => h.snapshot (List.getElem?_eq_getElem hi) he (o := o) (n := n)
  have hinverse := h.tables _ hop he
  simp only [Operation.mapOriginalToRenamedRegisterIndex, optionallyMapIndex, getD_eq] at heq
  rcases hx : ops[i].renamingTable[r]? with _ | n <;>
    rcases hy : ops[i].renamingTable[s]? with _ | m <;>
    rw [hx, hy] at heq <;> simp only [Option.getD_none, Option.getD_some] at heq
  · exact heq
  · have := (hsnap hy).2.1
    omega
  · have := (hsnap hx).2.1
    omega
  · subst heq
    have hback := ((hinverse r n).mp hx).symm.trans ((hinverse s n).mp hy)
    exact Option.some.inj hback

/-- Only original registers are live at the start of a block. -/
theorem ControlFlowGraph.LiveIn.lt
    (hcfg : controlFlowGraphPrePipeline registerTable function mode = .ok cfg)
    (hrenamed : ∀ b, RenamedOperations base [] (visitedOperations function mode b)) {r : Nat}
    (h : cfg.LiveIn function mode b r) : r < base := by
  induction h with
  | read hi hr hnot => exact ((hrenamed _).reads hi _ hr).resolve_right hnot
  | @across b i c r r' op hi hc _ hto hnot ih =>
      have hedge := (controlFlowGraph_ok hcfg b).1 op (List.mem_of_getElem? hi)
      rw [toPredecessor_eq hedge hc] at hto
      have hto := Except.ok.inj hto
      split at hto
      · exact nomatch hto
      · obtain rfl := Option.some.inj hto
        rw [Operation.mapOriginalToRenamedRegisterIndex, optionallyMapIndex] at hnot ⊢
        cases hx : op.renamingTable[r]? with
        | none => rwa [getD_of_none hx]
        | some n =>
            rw [getD_of_some hx] at hnot
            exact absurd ((hrenamed b).snapshot hi (hedge c hc).1 hx).2.2 hnot

/-- Along an edge after renaming, a register of the successor comes back from the predecessor
    exactly if the successor does not write it, and the `Enqueue` renames it or the register is
    neither the original nor the renamed version of one that the predecessor writes; and
    different registers that are live at the successor have different translations. -/
theorem register_translation_coherent
    (hcfg : controlFlowGraphPrePipeline registerTable function mode = .ok cfg)
    (hrenamed : ∀ b, RenamedOperations base [] (visitedOperations function mode b))
    (hop : op ∈ visitedOperations function mode b) (hc : function.successorOf op = some c) :
    (∀ r, (∃ r', cfg.renameLocalToPredecessor b c r = .ok (some r') ∧
        cfg.renameLocalToSuccessor b c r' = .ok (some r)) ↔
      r ∉ cfg.renamedWritten c ∧ ((∃ n, op.renamingTable[r]? = some n) ∨
        (r ∉ cfg.originalWritten b ∧ ∀ o : Nat, op.renamingTable[o]? ≠ some r))) ∧
    (∀ r s r', cfg.LiveIn function mode c r → cfg.LiveIn function mode c s →
      cfg.renameLocalToPredecessor b c r = .ok (some r') →
      cfg.renameLocalToPredecessor b c s = .ok (some r') → r = s) := by
  obtain ⟨hedges, horiginal⟩ := controlFlowGraph_ok hcfg b
  have hedge := hedges op hop
  have he := (hedge c hc).1
  have hinverse := (hrenamed b).tables op hop he
  have hsnap : ∀ {op' : Operation}, op' ∈ visitedOperations function mode b →
      op'.isEnqueue = true → ∀ {o n : Nat}, op'.renamingTable[o]? = some n → o < base ∧ base ≤ n := by
    intro op' hop' he' o n hn
    obtain ⟨i, hi⟩ := List.mem_iff_getElem?.mp hop'
    exact ⟨((hrenamed b).snapshot hi he' hn).1, ((hrenamed b).snapshot hi he' hn).2.1⟩
  -- The original versions are registers of before
  have hskip : ∀ {n : Nat}, base ≤ n → n ∉ cfg.originalWritten b := by
    intro n hn hmem
    obtain ⟨op', hop', he', m, hm⟩ := horiginal n hmem
    have := (hsnap hop' he' (((hrenamed b).tables op' hop' he' n m).mpr hm)).1
    omega
  refine ⟨fun r => ⟨?_, ?_⟩, fun r s r' hr hs hto hto' => ?_⟩
  · rintro ⟨r', hto, hback⟩
    rw [toPredecessor_eq hedge hc] at hto
    rw [toSuccessor_eq hedge hc] at hback
    have hto := Except.ok.inj hto
    have hback := Except.ok.inj hback
    split at hto
    · exact nomatch hto
    · next hwritten =>
        split at hback
        · exact nomatch hback
        · next horig =>
            refine ⟨hwritten, ?_⟩
            cases hx : op.renamingTable[r]? with
            | some n => exact .inl ⟨n, rfl⟩
            | none =>
                rw [Operation.mapOriginalToRenamedRegisterIndex, optionallyMapIndex,
                  getD_of_none hx] at hto
                obtain rfl := Option.some.inj hto
                refine .inr ⟨horig, fun o ho => ?_⟩
                rw [Operation.mapRenamedToOriginalRegisterIndex, optionallyMapIndex,
                  getD_of_some ((hinverse o r).mp ho)] at hback
                obtain rfl := Option.some.inj hback
                exact nomatch hx.symm.trans ho
  · rintro ⟨hwritten, hrest⟩
    rw [toPredecessor_eq hedge hc, if_neg hwritten]
    refine ⟨_, rfl, ?_⟩
    rw [toSuccessor_eq hedge hc, Operation.mapOriginalToRenamedRegisterIndex,
      Operation.mapRenamedToOriginalRegisterIndex, optionallyMapIndex, optionallyMapIndex]
    cases hx : op.renamingTable[r]? with
    | some n =>
        rw [getD_of_some hx, if_neg (hskip (hsnap hop he hx).2),
          getD_of_some ((hinverse r n).mp hx)]
    | none =>
        obtain ⟨horig, hvalues⟩ := hrest.resolve_left (by rw [hx]; exact fun ⟨_, h⟩ => nomatch h)
        have hnone : op.reverseRenamingTable[r]? = none := by
          cases hy : op.reverseRenamingTable[r]? with
          | none => rfl
          | some o => exact absurd ((hinverse o r).mpr hy) (hvalues o)
        rw [getD_of_none hx, if_neg horig, getD_of_none hnone]
  · rw [toPredecessor_eq hedge hc] at hto hto'
    have hto := Except.ok.inj hto
    have hto' := Except.ok.inj hto'
    split at hto
    · exact nomatch hto
    · split at hto'
      · exact nomatch hto'
      · have heq := (Option.some.inj hto).trans (Option.some.inj hto').symm
        exact (hrenamed b).map_injective hop he (hr.lt hcfg hrenamed) (hs.lt hcfg hrenamed) heq

end

/-- Two blocks: the first passes on to the second, which writes register 1. -/
def twoBlocks : Function where
  start := 0
  basicBlocks := [
    ⟨[], [{ opcode := .enqueue false, successorBlock := some 1 }], []⟩,
    ⟨[], [{ opcode := .clear, dst := [.register 1] }], []⟩]

/-- An original local register, and the renamed version of it. -/
def twoRegisters : RegisterTable :=
  [⟨8, .local, false, false, none⟩, ⟨8, .local, false, false, none⟩]

theorem twoBlocks_renamed (b : Nat) :
    RenamedOperations 1 [] (visitedOperations twoBlocks .unscheduled b) := by
  match b with
  | 0 =>
      refine ⟨fun op hop _ o n => ?_, fun {i op} hi _ {o n} hn => ?_, fun {i op} hi r hr => ?_⟩
      · obtain rfl := List.mem_singleton.mp hop
        simp
      · obtain rfl := List.mem_singleton.mp (List.mem_of_getElem? hi)
        simp at hn
      · obtain rfl := List.mem_singleton.mp (List.mem_of_getElem? hi)
        exact nomatch hr
  | 1 =>
      refine ⟨fun op hop he => ?_, fun {i op} hi he {o n} _ => ?_, fun {i op} hi r hr => ?_⟩
      · obtain rfl := List.mem_singleton.mp hop
        exact nomatch he
      · obtain rfl := List.mem_singleton.mp (List.mem_of_getElem? hi)
        exact nomatch he
      · obtain rfl := List.mem_singleton.mp (List.mem_of_getElem? hi)
        exact nomatch hr
  | _ + 2 => exact .nil _ _

theorem register_translation_coherent_two_blocks :
    ∃ cfg, controlFlowGraphPrePipeline twoRegisters twoBlocks .unscheduled = .ok cfg ∧
      ∃ r', cfg.renameLocalToPredecessor 0 1 0 = .ok (some r') ∧
        cfg.renameLocalToSuccessor 0 1 r' = .ok (some 0) := by
  obtain ⟨cfg, hcfg, hwritten, horiginal⟩ : ∃ cfg,
      controlFlowGraphPrePipeline twoRegisters twoBlocks .unscheduled = .ok cfg ∧
      0 ∉ cfg.renamedWritten 1 ∧ 0 ∉ cfg.originalWritten 0 := ⟨_, rfl, by decide, by decide⟩
  refine ⟨cfg, hcfg, ?_⟩
  have h := register_translation_coherent hcfg twoBlocks_renamed
    (show { opcode := .enqueue false, successorBlock := some 1 } ∈
      visitedOperations twoBlocks .unscheduled 0 from List.mem_singleton_self _)
    (show twoBlocks.successorOf _ = some 1 from rfl)
  refine (h.1 0).mpr ⟨hwritten, .inr ⟨horiginal, fun o ho => ?_⟩⟩
  simp at ho

/-- The register that the second block writes is not renamed by the first block, nor written by it,
    and has no translation to it. -/
theorem written_register_not_translated :
    ∃ cfg, controlFlowGraphPrePipeline twoRegisters twoBlocks .unscheduled = .ok cfg ∧
      (∀ op ∈ visitedOperations twoBlocks .unscheduled 0,
        1 ∉ op.writes ∧ op.renamingTable[(1 : Nat)]? = none) ∧
      cfg.renameLocalToPredecessor 0 1 1 = .ok none := by
  refine ⟨_, rfl, fun op hop => ?_, rfl⟩
  obtain rfl := List.mem_singleton.mp hop
  exact ⟨List.not_mem_nil, Std.ExtTreeMap.getElem?_empty⟩

end Kanagawa.Lower
