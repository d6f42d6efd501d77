/-
  Kanagawa.Lower.LiveInSound

  Which registers that a path reads are in the live-in sets.

  The registers that a successor gets from elsewhere are erased from the set for
  the whole block, with what was collected after the `Enqueue`.  So a register is
  found live exactly if some path to a read of it passes no `Enqueue` that
  excludes it, whether the path takes this `Enqueue` or another one after it.
-/
import Kanagawa.Lower.LiveIn
import Kanagawa.Lib.NatMap

namespace Kanagawa.Lower

open IR Lib

namespace LiveInContext

variable (context : LiveInContext)

/-! ## Paths -/

/-- The registers that the successor of an `Enqueue` does not get through it, under their
    names in the block. -/
def excluded (op : Operation) : Finset Nat :=
  match op.successorBlock with
  | none => ∅
  | some successor =>
      let desc := context.successorDesc successor
      let renamed := op.mapOriginalToRenamedRegisterIndex
      (if desc.isAsyncCallEntryPoint then ∅
       else (desc.forcedDeadInReg.map renamed).toFinset ∪ context.allocatedInstance op desc) ∪
      (if desc.isReturnSite ∧ successor < context.blockCount then
        (desc.returnValueReg.map renamed).toFinset else ∅)

/-- An `Enqueue` leads to a block and passes on the value of a register to a register of
    that block. -/
structure Passes (op : Operation) (successor r r' : Nat) : Prop where
  leads : op.successorBlock = some successor
  notAsync : (context.successorDesc successor).isAsyncCallEntryPoint = false
  renamed : op.mapOriginalToRenamedRegisterIndex r' = r
  notExcluded : r ∉ context.excluded op

/-- The registers that a block of another function reads: its inputs, and what is known
    about it. -/
def readsElsewhere (known : RegisterSetMap) (successor : Nat) : Finset Nat :=
  (context.successorDesc successor).liveInReg.toFinset ∪ known successor

/-- Some path from operation `i` of block `b` on reads a local register before it writes
    it. -/
inductive ReadBeforeWritten (known : RegisterSetMap) : Nat → Nat → Nat → Prop
  | read {b i r : Nat} {op : Operation} :
      (context.operations b)[i]? = some op → r ∈ context.localReads op →
      ReadBeforeWritten known b i r
  | later {b i r : Nat} {op : Operation} :
      (context.operations b)[i]? = some op → r ∉ context.localWrites op →
      ReadBeforeWritten known b (i + 1) r → ReadBeforeWritten known b i r
  | successor {b i r c r' : Nat} {op : Operation} :
      (context.operations b)[i]? = some op → context.Passes op c r r' → c < context.blockCount →
      ReadBeforeWritten known c 0 r' → ReadBeforeWritten known b i r
  | elsewhere {b i r c r' : Nat} {op : Operation} :
      (context.operations b)[i]? = some op → context.Passes op c r r' → context.blockCount ≤ c →
      r' ∈ context.readsElsewhere known c → ReadBeforeWritten known b i r

/-- Some path from operation `i` of block `b` on passes no `Enqueue` that excludes the
    register, before it reads the register or leads to a block where it is forced to be
    live. -/
inductive ReadUnexcluded (known : RegisterSetMap) : Nat → Nat → Nat → Prop
  | read {b i r : Nat} {op : Operation} :
      (context.operations b)[i]? = some op → r ∉ context.excluded op →
      r ∈ context.localReads op → ReadUnexcluded known b i r
  | later {b i r : Nat} {op : Operation} :
      (context.operations b)[i]? = some op → r ∉ context.excluded op →
      r ∉ context.localWrites op → ReadUnexcluded known b (i + 1) r → ReadUnexcluded known b i r
  | successor {b i r c r' : Nat} {op : Operation} :
      (context.operations b)[i]? = some op → context.Passes op c r r' → c < context.blockCount →
      ReadUnexcluded known c 0 r' → ReadUnexcluded known b i r
  | forced {b i r c r' : Nat} {op : Operation} :
      (context.operations b)[i]? = some op → context.Passes op c r r' →
      r' ∈ (context.successorDesc c).liveInReg → ReadUnexcluded known b i r
  | known {b i r c r' : Nat} {op : Operation} :
      (context.operations b)[i]? = some op → context.Passes op c r r' → context.blockCount ≤ c →
      r' ∈ known c → ReadUnexcluded known b i r

variable {context}

/-! ## One operation -/

/-- What an `Enqueue` brings to the set. -/
theorem mem_getLiveInToSuccessor {op : Operation} {c : Nat} {liveInMap : RegisterSetMap}
    {live : Finset Nat} {r : Nat} (hleads : op.successorBlock = some c) :
    r ∈ context.getLiveInToSuccessor op c liveInMap live ↔
      r ∉ context.excluded op ∧
      (r ∈ live ∨ (context.successorDesc c).isAsyncCallEntryPoint = false ∧
        ∃ r', op.mapOriginalToRenamedRegisterIndex r' = r ∧
          (r' ∈ liveInMap c ∨ r' ∈ (context.successorDesc c).liveInReg)) := by
  have hbrought : (∃ r', op.mapOriginalToRenamedRegisterIndex r' = r ∧
      (r' ∈ liveInMap c ∨ r' ∈ (context.successorDesc c).liveInReg)) ↔
      r ∈ (liveInMap c).image op.mapOriginalToRenamedRegisterIndex ∨
        r ∈ (context.successorDesc c).liveInReg.map op.mapOriginalToRenamedRegisterIndex := by
    rw [Finset.mem_image, List.mem_map]
    constructor
    · rintro ⟨r', hr', hmem | hmem⟩
      · exact .inl ⟨r', hmem, hr'⟩
      · exact .inr ⟨r', hmem, hr'⟩
    · rintro (⟨r', hmem, hr'⟩ | ⟨r', hmem, hr'⟩)
      · exact ⟨r', hr', .inl hmem⟩
      · exact ⟨r', hr', .inr hmem⟩
  rw [hbrought]
  simp only [getLiveInToSuccessor, excluded, hleads]
  cases hasync : (context.successorDesc c).isAsyncCallEntryPoint with
  | true =>
    simp only [if_true]
    split <;> simp [Finset.mem_sdiff, and_comm]
  | false =>
    simp only [Bool.false_eq_true, if_false]
    split <;>
      simp only [Finset.mem_sdiff, Finset.mem_union, List.mem_toFinset, Finset.notMem_empty,
        or_false, not_or, true_and] <;> tauto

/-- What one operation of the reverse loop leaves in the set. -/
theorem mem_visitOperation {liveInMap : RegisterSetMap} {op : Operation} {live : Finset Nat}
    {r : Nat} :
    r ∈ context.visitOperation liveInMap op live ↔
      r ∉ context.excluded op ∧
      (r ∈ context.localReads op ∨ (r ∈ live ∧ r ∉ context.localWrites op) ∨
        ∃ c r', context.Passes op c r r' ∧
          (r' ∈ liveInMap c ∨ r' ∈ (context.successorDesc c).liveInReg)) := by
  have hlive : r ∈ live \ context.localWrites op ∪ context.localReads op ↔
      r ∈ context.localReads op ∨ (r ∈ live ∧ r ∉ context.localWrites op) := by
    rw [Finset.mem_union, Finset.mem_sdiff, or_comm]
  cases hleads : op.successorBlock with
  | none =>
    have hnone : context.excluded op = ∅ := by
      rw [excluded, hleads]
    simp only [visitOperation, hleads, hlive, hnone]
    constructor
    · rintro (hread | hlater)
      · exact ⟨Finset.notMem_empty r, .inl hread⟩
      · exact ⟨Finset.notMem_empty r, .inr (.inl hlater)⟩
    · rintro ⟨-, hread | hlater | ⟨c, r', hpasses, -⟩⟩
      · exact .inl hread
      · exact .inr hlater
      · rw [hpasses.leads] at hleads
        cases hleads
  | some c =>
    simp only [visitOperation, hleads, mem_getLiveInToSuccessor hleads, hlive]
    constructor
    · rintro ⟨hnot, (hread | hlater) | ⟨hasync, r', hr', hmem⟩⟩
      · exact ⟨hnot, .inl hread⟩
      · exact ⟨hnot, .inr (.inl hlater)⟩
      · exact ⟨hnot, .inr (.inr ⟨c, r', ⟨hleads, hasync, hr', hnot⟩, hmem⟩)⟩
    · rintro ⟨hnot, hread | hlater | ⟨c', r', hpasses, hmem⟩⟩
      · exact ⟨hnot, .inl (.inl hread)⟩
      · exact ⟨hnot, .inl (.inr hlater)⟩
      · have hc : c' = c := Option.some.inj (hpasses.leads.symm.trans hleads)
        subst hc
        exact ⟨hnot, .inr ⟨hpasses.notAsync, r', hpasses.renamed, hmem⟩⟩

/-! ## The equations -/

theorem lt_of_mem_operations {b : Nat} {op : Operation} (hop : op ∈ context.operations b) :
    b < context.blockCount := by
  by_contra hge
  rw [operations, List.getElem?_eq_none (Nat.le_of_not_lt hge)] at hop
  exact nomatch hop

theorem mem_predecessors {a c : Nat} :
    a ∈ context.predecessors c ↔ ∃ op ∈ context.operations a, op.successorBlock = some c := by
  rw [predecessors, List.mem_filter, List.mem_range, List.any_eq_true]
  constructor
  · rintro ⟨-, op, hop, hleads⟩
    exact ⟨op, hop, of_decide_eq_true hleads⟩
  · rintro ⟨op, hop, hleads⟩
    exact ⟨lt_of_mem_operations hop, op, hop, decide_eq_true hleads⟩

theorem liveBefore_monotone {s s' : RegisterSetMap} (hle : ∀ a, s a ⊆ s' a)
    (ops : List Operation) : context.liveBefore s ops ⊆ context.liveBefore s' ops := by
  induction ops with
  | nil => exact Finset.Subset.refl _
  | cons op ops ih =>
    intro r hr
    rw [liveBefore, List.foldr_cons, mem_visitOperation] at hr ⊢
    obtain ⟨hnot, hread | ⟨hlater, hwrite⟩ | ⟨c, r', hpasses, hmem⟩⟩ := hr
    · exact ⟨hnot, .inl hread⟩
    · exact ⟨hnot, .inr (.inl ⟨ih hlater, hwrite⟩)⟩
    · exact ⟨hnot, .inr (.inr ⟨c, r', hpasses, hmem.imp_left fun h => hle c h⟩)⟩

/-- Only the sets of successors matter. -/
theorem liveBefore_update {s : RegisterSetMap} {c : Nat} (set : Finset Nat)
    {ops : List Operation} (hops : ∀ op ∈ ops, op.successorBlock ≠ some c) :
    context.liveBefore (Function.update s c set) ops = context.liveBefore s ops := by
  induction ops with
  | nil => rfl
  | cons op ops ih =>
    have hhead := hops op List.mem_cons_self
    have htail := ih fun op' hop' => hops op' (List.mem_cons_of_mem _ hop')
    ext r
    rw [liveBefore, liveBefore, List.foldr_cons, List.foldr_cons, mem_visitOperation,
      mem_visitOperation, ← liveBefore, ← liveBefore, htail]
    refine and_congr_right fun _ => or_congr_right (or_congr_right ?_)
    refine exists_congr fun c' => exists_congr fun r' => and_congr_right fun hpasses => ?_
    have hne : c' ≠ c := fun heq => hhead (heq ▸ hpasses.leads)
    rw [Function.update_of_ne hne]

/-- The registers that an operation can bring to the sets by itself. -/
def mentioned (context : LiveInContext) (known : RegisterSetMap) (op : Operation) : Finset Nat :=
  context.localReads op ∪ (op.renamingTable.toList.map Prod.snd).toFinset ∪
    match op.successorBlock with
    | none => ∅
    | some c => (context.successorDesc c).liveInReg.toFinset ∪ known c

/-- All registers that are ever found live. -/
def elements (context : LiveInContext) (known : RegisterSetMap) : Finset Nat :=
  ((List.range context.blockCount).flatMap context.operations).foldr
    (fun op set => context.mentioned known op ∪ set) ∅

theorem mentioned_subset {known : RegisterSetMap} {b : Nat} {op : Operation}
    (hop : op ∈ context.operations b) : context.mentioned known op ⊆ context.elements known := by
  have hall : ∀ ops : List Operation, op ∈ ops → context.mentioned known op ⊆
      ops.foldr (fun op set => context.mentioned known op ∪ set) ∅ := by
    intro ops hmem
    induction ops with
    | nil => exact nomatch hmem
    | cons op' ops ih =>
      rw [List.foldr_cons]
      rcases List.mem_cons.mp hmem with rfl | hmem
      · exact Finset.subset_union_left
      · exact (ih hmem).trans Finset.subset_union_right
  refine hall _ (List.mem_flatMap.mpr ⟨b, List.mem_range.mpr ?_, hop⟩)
  exact lt_of_mem_operations hop

/-- A new name is from the table. -/
theorem renamed_cases (op : Operation) (r : Nat) :
    op.mapOriginalToRenamedRegisterIndex r = r ∨
      op.mapOriginalToRenamedRegisterIndex r ∈ op.renamingTable.toList.map Prod.snd := by
  cases hget : op.renamingTable[r]? with
  | none => exact .inl (NatMap.getD_of_none hget r)
  | some r' =>
    refine .inr ?_
    rw [Operation.mapOriginalToRenamedRegisterIndex, optionallyMapIndex,
      NatMap.getD_of_some hget]
    exact List.mem_map.mpr ⟨(r, r'), NatMap.mem_toList_iff.mpr hget, rfl⟩

theorem liveBefore_subset {known s : RegisterSetMap} {b : Nat}
    (hinside : ∀ a < context.blockCount, s a ⊆ context.elements known)
    (houtside : ∀ a, context.blockCount ≤ a → s a = known a) :
    ∀ ops ⊆ context.operations b, context.liveBefore s ops ⊆ context.elements known := by
  intro ops hops
  induction ops with
  | nil => exact Finset.empty_subset _
  | cons op ops ih =>
    have hop : context.mentioned known op ⊆ context.elements known :=
      mentioned_subset (hops List.mem_cons_self)
    intro r hr
    rw [liveBefore, List.foldr_cons, mem_visitOperation] at hr
    obtain ⟨-, hread | ⟨hlater, -⟩ | ⟨c, r', hpasses, hmem⟩⟩ := hr
    · exact hop (Finset.mem_union_left _ (Finset.mem_union_left _ hread))
    · exact ih (fun op' hop' => hops (List.mem_cons_of_mem _ hop')) hlater
    · have hr' : r' ∈ context.elements known := by
        have hbrought : (context.successorDesc c).liveInReg.toFinset ∪ known c ⊆
            context.elements known := by
          refine Finset.Subset.trans ?_ hop
          rw [mentioned, hpasses.leads]
          exact Finset.subset_union_right
        rcases hmem with hmem | hmem
        · by_cases hc : c < context.blockCount
          · exact hinside c hc hmem
          · rw [houtside c (Nat.le_of_not_lt hc)] at hmem
            exact hbrought (Finset.mem_union_right _ hmem)
        · exact hbrought (Finset.mem_union_left _ (List.mem_toFinset.mpr hmem))
      rw [← hpasses.renamed]
      rcases renamed_cases op r' with heq | htable
      · rwa [heq]
      · exact hop (Finset.mem_union_left _
          (Finset.mem_union_right _ (List.mem_toFinset.mpr htable)))

theorem system (known : RegisterSetMap) :
    SetEquations.System context.blockCount
      (fun liveInMap b => context.liveBefore liveInMap (context.operations b))
      context.predecessors known (context.elements known) where
  monotone b hle := liveBefore_monotone hle _
  depends := by
    intro s b c set _ hb
    exact liveBefore_update set fun op hop hleads => hb (mem_predecessors.mpr ⟨op, hop, hleads⟩)
  affected_lt := by
    intro b c _ hb
    obtain ⟨op, hop, -⟩ := mem_predecessors.mp hb
    exact lt_of_mem_operations hop
  bounded _ hinside houtside := liveBefore_subset hinside houtside _ (List.Subset.refl _)

/-! ## Live registers and paths -/

theorem drop_eq_cons {b i : Nat} {op : Operation} (hop : (context.operations b)[i]? = some op) :
    (context.operations b).drop i = op :: (context.operations b).drop (i + 1) := by
  obtain ⟨hlt, heq⟩ := List.getElem?_eq_some_iff.mp hop
  rw [List.drop_eq_getElem_cons hlt, heq]

/-- A register that is found live is read on a path without exclusions, if that is so for
    the registers found live before. -/
theorem readUnexcluded_of_mem {known s : RegisterSetMap}
    (houtside : ∀ a, context.blockCount ≤ a → s a = known a)
    (hinside : ∀ a < context.blockCount, ∀ r ∈ s a, context.ReadUnexcluded known a 0 r) {b : Nat} :
    ∀ {i r : Nat}, r ∈ context.liveBefore s ((context.operations b).drop i) →
      context.ReadUnexcluded known b i r := by
  intro i
  induction hk : (context.operations b).length - i generalizing i with
  | zero =>
    intro r hr
    rw [List.drop_of_length_le (by omega)] at hr
    exact absurd hr (Finset.notMem_empty r)
  | succ k ih =>
    intro r hr
    have hop : (context.operations b)[i]? = some (context.operations b)[i] :=
      List.getElem?_eq_getElem (by omega)
    rw [drop_eq_cons hop, liveBefore, List.foldr_cons, mem_visitOperation] at hr
    obtain ⟨hnot, hread | ⟨hlater, hwrite⟩ | ⟨c, r', hpasses, hmem⟩⟩ := hr
    · exact .read hop hnot hread
    · exact .later hop hnot hwrite (ih (by omega) hlater)
    · rcases hmem with hmem | hmem
      · by_cases hc : c < context.blockCount
        · exact .successor hop hpasses hc (hinside c hc r' hmem)
        · have hge := Nat.le_of_not_lt hc
          rw [houtside c hge] at hmem
          exact .known hop hpasses hge hmem
      · exact .forced hop hpasses hmem

/-- A register that is read on a path without exclusions is live in a solution. -/
theorem mem_of_readUnexcluded {known s : RegisterSetMap}
    (hsolution : ∀ b < context.blockCount, s b = context.liveBefore s (context.operations b))
    (houtside : ∀ a, context.blockCount ≤ a → s a = known a) {b i r : Nat}
    (h : context.ReadUnexcluded known b i r) :
    r ∈ context.liveBefore s ((context.operations b).drop i) := by
  induction h with
  | read hop hnot hread =>
    rw [drop_eq_cons hop, liveBefore, List.foldr_cons, mem_visitOperation]
    exact ⟨hnot, .inl hread⟩
  | later hop hnot hwrite _ ih =>
    rw [drop_eq_cons hop, liveBefore, List.foldr_cons, mem_visitOperation]
    exact ⟨hnot, .inr (.inl ⟨ih, hwrite⟩)⟩
  | @successor b i r c r' op hop hpasses hc _ ih =>
    rw [drop_eq_cons hop, liveBefore, List.foldr_cons, mem_visitOperation]
    rw [List.drop_zero, ← hsolution c hc] at ih
    exact ⟨hpasses.notExcluded, .inr (.inr ⟨c, r', hpasses, .inl ih⟩)⟩
  | @forced b i r c r' op hop hpasses hmem =>
    rw [drop_eq_cons hop, liveBefore, List.foldr_cons, mem_visitOperation]
    exact ⟨hpasses.notExcluded, .inr (.inr ⟨c, r', hpasses, .inr hmem⟩)⟩
  | @known b i r c r' op hop hpasses hc hmem =>
    rw [drop_eq_cons hop, liveBefore, List.foldr_cons, mem_visitOperation]
    rw [← houtside c hc] at hmem
    exact ⟨hpasses.notExcluded, .inr (.inr ⟨c, r', hpasses, .inl hmem⟩)⟩

/-- The analysis ends, and finds a register live exactly if some path without exclusions
    reads it. -/
theorem computeLiveInMap_spec (known : RegisterSetMap)
    (hempty : ∀ b < context.blockCount, known b = ∅) :
    ∃ bound, ∀ fuel, bound ≤ fuel → ∃ liveInMap : RegisterSetMap,
      context.computeLiveInMap fuel known = some (.ok liveInMap) ∧
      ∀ b < context.blockCount, ∀ r, r ∈ liveInMap b ↔ context.ReadUnexcluded known b 0 r := by
  obtain ⟨bound, hbound⟩ := SetEquations.solves (ε := Failure) (system known) hempty
  refine ⟨bound, fun fuel hfuel => ?_⟩
  obtain ⟨s, hrun, hsolution, houtside, hproperty⟩ := hbound fuel hfuel
  refine ⟨s, hrun, fun b hb r =>
    ⟨hproperty (fun b r => context.ReadUnexcluded known b 0 r) ?_ b hb r, fun hread => ?_⟩⟩
  · intro s' houtside' hinside' b' _ r' hr'
    exact readUnexcluded_of_mem (i := 0) houtside' hinside' hr'
  · rw [hsolution b hb]
    exact mem_of_readUnexcluded hsolution houtside hread

/-- The live-in sets of a map have every register that a path reads before it writes it. -/
def LiveInSound (context : LiveInContext) (known liveInMap : RegisterSetMap) : Prop :=
  ∀ b < context.blockCount, ∀ r, context.ReadBeforeWritten known b 0 r → r ∈ liveInMap b

end LiveInContext

/-! ## A call and a branch -/

open LiveInContext

/-- An `Enqueue` to a block, without renaming. -/
def enqueueTo (successor : Nat) : Operation where
  opcode := .enqueue true
  successorBlock := some successor

/-- Block 0 calls a function whose result block 1 gets in register 0, or goes to block 2,
    which reads register 0; `order` is the order of the two. -/
def callOrBranch (order : List Nat) : LiveInContext where
  table := [⟨8, .local, false, false, none⟩]
  function :=
    { start := 0
      basicBlocks :=
        [⟨[], order.map enqueueTo, []⟩, ⟨[], [], []⟩,
         ⟨[], [{ opcode := .print, src := [.register 0] }], []⟩] }
  mode := .unscheduled
  successorDesc b :=
    if b = 1 then { isReturnSite := true, liveInReg := [0], returnValueReg := [0] } else {}
  enqueueType _ := .default

theorem readBeforeWritten_callOrBranch :
    (callOrBranch [1, 2]).ReadBeforeWritten (fun _ => ∅) 0 0 0 := by
  have hprint : ((callOrBranch [1, 2]).operations 2)[0]? =
      some { opcode := .print, src := [.register 0] } := rfl
  have hbranch : ((callOrBranch [1, 2]).operations 0)[1]? = some (enqueueTo 2) := rfl
  have hcall : ((callOrBranch [1, 2]).operations 0)[0]? = some (enqueueTo 1) := rfl
  have hpasses : (callOrBranch [1, 2]).Passes (enqueueTo 2) 2 0 0 :=
    ⟨rfl, rfl, rfl, by decide⟩
  exact .later hcall (by decide)
    (.successor hbranch hpasses (by decide) (.read hprint (by decide)))

end Kanagawa.Lower
