/-
  Kanagawa.Optimize.KillMovesSound

  `KillMoves` keeps what every operation reads, on every path from the start of the
  function, as long as no `Enqueue` of the function leads back to its first block.

  The equalities at the start of the first block are those its predecessors inside
  the function agree on, although a thread that enters the function comes from none
  of them.
-/
import Kanagawa.Optimize.KillMovesRun

namespace Kanagawa.Optimize

open IR Lib Lib.Except Lib.NatMap Lower

variable {table : RegisterTable} {f : Function} {W : Type} {m : Machine W}

/-! ## When an equality holds -/

/-- The operand has the value of the register. -/
def EqualityHolds (table : RegisterTable) (locals : Nat → Nat) (k : Nat) : SourceOperand → Prop
  | .literal l => locals k % 2 ^ (table.desc k).width = l.value
  | .register r =>
      locals r % 2 ^ (table.desc k).width = locals k % 2 ^ (table.desc k).width
  | _ => False

/-- An equality only depends on the two registers it is about. -/
theorem EqualityHolds.transfer {locals locals' : Nat → Nat} {k k' : Nat} {v v' : SourceOperand}
    (h : EqualityHolds table locals k v) (hk : locals' k' = locals k)
    (hwidth : (table.desc k').width = (table.desc k).width)
    (hv : (∃ l, v = .literal l ∧ v' = .literal l) ∨
      ∃ r r', v = .register r ∧ v' = .register r' ∧ locals' r' = locals r) :
    EqualityHolds table locals' k' v' := by
  rcases hv with ⟨l, rfl, rfl⟩ | ⟨r, r', rfl, rfl, hr⟩
  · rw [EqualityHolds, hk, hwidth]
    exact h
  · rw [EqualityHolds, hk, hr, hwidth]
    exact h

/-- Replacing a source operand by an equal one keeps its value. -/
theorem evalSource_replaceSource {equalValues : EqualValueMap} {σ : State W} (srcOp : SourceOperand)
    (h : ∀ r v, srcOp = .register r → equalValues[r]? = some v →
      TypedEquality table r v ∧ EqualityHolds table σ.locals r v) :
    evalSource m table σ (replaceSource table equalValues srcOp) =
      evalSource m table σ srcOp := by
  cases srcOp with
  | register r =>
      cases hv : equalValues[r]? with
      | none => simp only [replaceSource, hv]
      | some v =>
          obtain ⟨⟨hlocal, hoperand⟩, hholds⟩ := h r v rfl hv
          have hisLocal := isLocal_of_isLocalVariable hlocal
          rcases hoperand with ⟨l, rfl, -⟩ | ⟨r', rfl, hlocal', hwidth⟩
          · simp only [replaceSource, hv, evalSource, hisLocal, if_true]
            rw [EqualityHolds] at hholds
            rw [hholds]
          · simp only [replaceSource, hv, evalSource, hisLocal,
              isLocal_of_isLocalVariable hlocal', if_true]
            rw [EqualityHolds] at hholds
            rw [hwidth, hholds]
  | _ => rfl

/-! ## Moves -/

/-- A move into a local register gives it the resized value of its source. -/
theorem execOperation_move {σ : State W} {op : Operation} {srcOp : SourceOperand} {k result : Nat}
    {l : Literal} (hmov : op.opcode = .mov) (hsrc : op.src = [srcOp])
    (hdst : op.dst = [.register k]) (hlocal : isLocalVariable table k)
    (hvalue : evalSource m table σ srcOp = .bits l.value l.width)
    (hresize : resize l (op.signExtendSourceMask.testBit 0) (table.desc k).width = .ok result) :
    (execOperation m table σ op).locals k = result % 2 ^ (table.desc k).width := by
  have hvalues : (evalSources m table σ op).mapM Value.literal? = some [l] := by
    rw [evalSources, hsrc, List.map_singleton, hvalue]
    rfl
  have hpure := pureResult?_eq hdst hlocal hvalues
  rw [hmov, pureResult, hresize] at hpure
  rw [execOperation_of_pure hdst hlocal hpure]
  exact Function.update_self ..

theorem resize_of_not_signed {l : Literal} (hpos : 0 < l.width) (dstWidth : Nat) :
    resize l false dstWidth = .ok (truncate l.value dstWidth) := by
  rw [resize, widen, assert_of_true (decide_eq_true hpos)]
  rfl

theorem resize_of_same_width {l : Literal} {s : Bool} {dstWidth : Nat}
    (hwidth : dstWidth = l.width) (hfits : l.value < 2 ^ l.width) (hpos : 0 < l.width)
    (hle : l.width ≤ 2 ^ 32) : resize l s dstWidth = .ok l.value := by
  have hwiden : widen l s dstWidth = .ok l.value := by
    have hbit : bitTest l.value (l.width - 1) = .ok (l.value.testBit (l.width - 1)) :=
      if_pos (by unfold uint32Max; omega)
    rw [widen, assert_of_true (decide_eq_true hpos), ok_bind, hwidth, Nat.sub_self,
      List.range'_zero]
    cases s with
    | false => rfl
    | true =>
        rw [if_pos rfl, hbit, ok_bind]
        cases l.value.testBit (l.width - 1)
        · rfl
        · rfl
  rw [resize, hwiden, ok_bind, hwidth, truncate_natCast_of_lt hfits]
  rfl

/-- Right after a move its equality holds. -/
theorem RecordedBy.holds {op : Operation} (hshape : op.opcode = .mov → MoveShape table op)
    {k : Nat} {v : SourceOperand} (h : RecordedBy table op k v)
    (hne : ∀ r, v = .register r → r ≠ k) (σ : State W) :
    EqualityHolds table (execOperation m table σ op).locals k v := by
  have hlocal := (h.typed hshape).isLocal
  rcases h with @⟨l, hmov, hsrc, hdst, hmask⟩ | @⟨r, hmov, hsrc, hdst, hr, hwidth⟩
  · have hpos : 0 < l.width := by
      rcases hshape hmov with ⟨l', _, hsrc', _, _, hpos⟩ | ⟨_, _, hsrc', _, _, _, _⟩
      · rw [hsrc, List.cons.injEq, SourceOperand.literal.injEq] at hsrc'
        exact hsrc'.1 ▸ hpos
      · rw [hsrc, List.cons.injEq] at hsrc'
        exact nomatch hsrc'.1
    have hunsigned : op.signExtendSourceMask.testBit 0 = false := by rw [hmask, Nat.zero_testBit]
    have hresize := resize_of_not_signed hpos (table.desc k).width
    rw [← hunsigned] at hresize
    rw [EqualityHolds, execOperation_move hmov hsrc hdst hlocal rfl hresize, Nat.mod_mod]
    exact Nat.mod_eq_of_lt (truncate_lt _ _)
  · obtain ⟨hpos, hle⟩ : 0 < (table.desc r).width ∧ (table.desc r).width ≤ 2 ^ 32 := by
      rcases hshape hmov with ⟨_, _, hsrc', _, _, _⟩ | ⟨r', _, hsrc', _, _, hpos, hle⟩
      · rw [hsrc, List.cons.injEq] at hsrc'
        exact nomatch hsrc'.1
      · rw [hsrc, List.cons.injEq, SourceOperand.register.injEq] at hsrc'
        rw [hsrc'.1]
        exact ⟨hpos, hle⟩
    have hvalue : evalSource m table σ (.register r) =
        .bits (σ.locals r % 2 ^ (table.desc r).width) (table.desc r).width := by
      rw [evalSource, isLocal_of_isLocalVariable hr]
      rfl
    have hlt : σ.locals r % 2 ^ (table.desc r).width < 2 ^ (table.desc r).width :=
      Nat.mod_lt _ (by positivity)
    have hmove := execOperation_move
      (l := ⟨σ.locals r % 2 ^ (table.desc r).width, (table.desc r).width⟩)
      hmov hsrc hdst hlocal hvalue (resize_of_same_width hwidth hlt hpos hle)
    have hnot : r ∉ op.writes := by
      rw [Operation.writes, hdst]
      exact fun hmem => hne r rfl (List.mem_singleton.mp hmem)
    rw [EqualityHolds, hmove, execOperation_of_not_written hnot, hwidth]
    simp only [Nat.mod_mod]

/-! ## Along a block -/

section

variable {equalValueMaps : Nat → EqualValueMap}

/-- What the analysis found: maps whose equalities are justified and well typed. -/
structure Solution (table : RegisterTable) (f : Function)
    (equalValueMaps : Nat → EqualValueMap) : Prop where
  justified : Justified table f equalValueMaps
  typed : ∀ (c k : Nat) (v : SourceOperand), (equalValueMaps c)[k]? = some v →
    TypedEquality table k v

/-- The equalities with which a block starts hold. -/
def HoldsAtStart (table : RegisterTable) (f : Function) (equalValueMaps : Nat → EqualValueMap)
    (b : Nat) (locals : Nat → Nat) : Prop :=
  ∀ k v, Inherited f equalValueMaps b k v → EqualityHolds table locals k v

/-- Nothing before the move that leaves an equality reads what the move writes. -/
theorem MovableFunction.move_operand_ne (hf : MovableFunction table f) {b j k r : Nat}
    {op : Operation} (hreach : f.Reachable b) (hat : (f.operationsOf b)[j]? = some op)
    (hby : RecordedBy table op k (.register r)) (hlocal : isLocalVariable table k) : r ≠ k := by
  rintro rfl
  have hwritten : WrittenAt f b j r := ⟨op, hat, hby.writes ▸ List.mem_singleton_self r⟩
  exact Nat.lt_irrefl j (hf.written_before_read hreach hat hby.reads hlocal hwritten)

/-- An equality of a block holds at every position behind the block's own write of the
    register. -/
theorem Solution.holds_at (hf : MovableFunction table f) (hstart : NoEdgeToStart f)
    (hsol : Solution table f equalValueMaps) {b i k : Nat} {v : SourceOperand} {σ : State W}
    (hreach : f.Reachable b) (hentry : HoldsAtStart table f equalValueMaps b σ.locals)
    (hkv : (equalValueMaps b)[k]? = some v) (hi : ∀ j, WrittenAt f b j k → j < i) :
    EqualityHolds table (execOperations m table σ ((f.operationsOf b).take i)).locals k v := by
  obtain ⟨hlocal, hoperand⟩ := hsol.typed b k v hkv
  rcases hsol.justified b k v hkv with hrec | hinh
  · -- The block's own move: the equality holds behind it, and neither register changes
    obtain ⟨op, hop, hby⟩ := hrec
    obtain ⟨j, -, hat⟩ := mem_bodyOf_position hop
    have hwritten : WrittenAt f b j k := ⟨op, hat, hby.writes ▸ List.mem_singleton_self k⟩
    have hji := hi j hwritten
    have hafter : EqualityHolds table
        (execOperations m table σ ((f.operationsOf b).take (j + 1))).locals k v := by
      rw [execOperations_take_succ hat]
      refine hby.holds (hf.moves hop) (fun r hr => ?_) _
      subst hr
      exact hf.move_operand_ne hreach hat hby hlocal
    refine hafter.transfer (hf.locals_after_write hlocal hwritten hji) rfl ?_
    rcases hoperand with ⟨l, rfl, -⟩ | ⟨r, rfl, hlocal', -⟩
    · exact .inl ⟨l, rfl, rfl⟩
    · refine .inr ⟨r, r, rfl, rfl, ?_⟩
      rw [hf.locals_after_read hreach hat hby.reads hlocal' (Nat.le_of_lt hji),
        hf.locals_after_read hreach hat hby.reads hlocal' (Nat.le_succ j)]
  · -- An equality from the start of the block: the block writes neither register
    obtain ⟨hkey, hop⟩ := hinh.not_written hf hstart hsol.justified hreach
    refine (hentry k v hinh).transfer (locals_of_not_written (hkey hlocal)) rfl ?_
    rcases hoperand with ⟨l, rfl, -⟩ | ⟨r, rfl, hlocal', -⟩
    · exact .inl ⟨l, rfl, rfl⟩
    · exact .inr ⟨r, r, rfl, rfl, locals_of_not_written (hop r rfl hlocal')⟩

theorem replaceSources_info {equalValues : EqualValueMap} (op : Operation) :
    (replaceSources table equalValues op).info table = op.info table := by
  unfold replaceSources
  split
  · rfl
  · rfl

theorem replaceSources_dst {equalValues : EqualValueMap} (op : Operation) :
    (replaceSources table equalValues op).dst = op.dst := by
  unfold replaceSources
  split
  · rfl
  · rfl

theorem replaceSources_renamingTable {equalValues : EqualValueMap} (op : Operation) :
    (replaceSources table equalValues op).renamingTable = op.renamingTable := by
  unfold replaceSources
  split
  · rfl
  · rfl

/-- A block reads the same values and does the same after its sources are replaced. -/
theorem Solution.block (hf : MovableFunction table f) (hstart : NoEdgeToStart f)
    (hsol : Solution table f equalValueMaps) {b : Nat} {σ : State W} (hreach : f.Reachable b)
    (hentry : HoldsAtStart table f equalValueMaps b σ.locals) :
    let ops := f.operationsOf b
    let ops' := ops.map (replaceSources table (equalValueMaps b))
    traceOperations m table σ ops' = traceOperations m table σ ops ∧
      ∀ i, execOperations m table σ (ops'.take i) = execOperations m table σ (ops.take i) := by
  refine trace_exec_map_eq _ replaceSources_info replaceSources_dst fun i op hop => ?_
  unfold replaceSources
  split
  · rfl
  · rw [evalSources, evalSources, List.map_map]
    refine List.map_congr_left fun srcOp hsrc => evalSource_replaceSource srcOp ?_
    intro r v hr hkv
    have hreads : r ∈ op.reads := List.mem_filterMap.mpr ⟨srcOp, hsrc, by rw [hr]; rfl⟩
    have htyped := hsol.typed b r v hkv
    exact ⟨htyped, hsol.holds_at hf hstart hreach hentry hkv fun j hwritten =>
      hf.written_before_read hreach hop hreads htyped.isLocal hwritten⟩

/-! ## From block to block -/

/-- At an `Enqueue` all equalities of the block hold. -/
theorem Solution.holds_at_enqueue (hf : MovableFunction table f) (hstart : NoEdgeToStart f)
    (hsol : Solution table f equalValueMaps) {b i c k : Nat} {op : Operation}
    {v : SourceOperand} {σ : State W} (hreach : f.Reachable b)
    (hentry : HoldsAtStart table f equalValueMaps b σ.locals) (hedge : f.Edge b i op c)
    (hkv : (equalValueMaps b)[k]? = some v) :
    EqualityHolds table (execOperations m table σ ((f.operationsOf b).take i)).locals k v := by
  have hlocal := (hsol.typed b k v hkv).isLocal
  refine hsol.holds_at hf hstart hreach hentry hkv fun j hwritten => ?_
  rcases hsol.justified b k v hkv with hrec | hinh
  · have hc : c ≠ f.start := by
      rintro rfl
      exact hstart hedge
    obtain ⟨j', hj', hwritten'⟩ := hrec.writtenAt
    rw [(hf.writtenOnce hlocal hwritten hwritten').2]
    exact Nat.lt_of_lt_of_le hj' (hf.calls hedge hc)
  · exact absurd hwritten ((hinh.not_written hf hstart hsol.justified hreach).1 hlocal j)

/-- The equalities at the start of the successor hold in what the `Enqueue` passes on. -/
theorem Solution.handover (hf : MovableFunction table f) (hstart : NoEdgeToStart f)
    (hsol : Solution table f equalValueMaps) {b i c : Nat} {op : Operation} {σ : State W}
    (hreach : f.Reachable b) (hentry : HoldsAtStart table f equalValueMaps b σ.locals)
    (hedge : f.Edge b i op c) :
    HoldsAtStart table f equalValueMaps c fun r =>
      (execOperations m table σ ((f.operationsOf b).take i)).locals
        (op.mapOriginalToRenamedRegisterIndex r) := by
  intro k v hinh
  obtain ⟨r, o, hmem, hover, hnone, rfl, rfl⟩ := hinh.all hedge
  obtain ⟨hlocal, hoperand⟩ := hsol.typed b r o hmem
  have hholds := hsol.holds_at_enqueue (m := m) hf hstart hreach hentry hedge hmem
  refine hholds.transfer ?_ (hf.mapRenamed_sameKind hedge hlocal).2 ?_
  · rw [mapOriginal_mapRenamed (hf.inverse hedge) hnone]
  · rcases hoperand with ⟨l, rfl, -⟩ | ⟨r', rfl, -, -⟩
    · exact .inl ⟨l, rfl, rfl⟩
    · refine .inr ⟨r', _, rfl, rfl, ?_⟩
      have hnone' : op.renamingTable[r']? = none := by
        rwa [isOverwritten, contains_eq, Option.isSome_eq_false_iff,
          Option.isNone_iff_eq_none] at hover
      rw [mapOriginal_mapRenamed (hf.inverse hedge) hnone']

/-! ## Along a route -/

theorem operationsOf_applyEqualValues (b : Nat) :
    (applyEqualValues table equalValueMaps f).operationsOf b =
      (f.operationsOf b).map (replaceSources table (equalValueMaps b)) := by
  unfold Function.operationsOf applyEqualValues
  rw [List.getElem?_mapIdx]
  cases f.basicBlocks[b]? with
  | none => rfl
  | some basicBlock =>
      simp only [Option.map_some, BasicBlock.allOperations, replaceInBlock, List.map_append,
        List.flatMap_map, List.map_flatMap]

/-- Leaving a block: the next block starts in the same state. -/
theorem Solution.leave (hf : MovableFunction table f) (hstart : NoEdgeToStart f)
    (hsol : Solution table f equalValueMaps) {σ : State W} {visit : Visit W}
    (hreach : f.Reachable visit.block)
    (hentry : HoldsAtStart table f equalValueMaps visit.block σ.locals) :
    (applyEqualValues table equalValueMaps f).leave m table σ visit =
      f.leave m table σ visit := by
  obtain ⟨-, hexec⟩ := hsol.block (m := m) hf hstart hreach hentry
  have hall := hexec (f.operationsOf visit.block).length
  rw [List.take_length, List.take_of_length_le (Nat.le_of_eq (List.length_map _))] at hall
  unfold Function.leave
  rw [operationsOf_applyEqualValues]
  dsimp only
  rw [List.getElem?_map, hexec, hall]
  cases (f.operationsOf visit.block)[visit.enqueue]? with
  | none => rfl
  | some op =>
      rw [Option.map_some]
      simp only [Operation.mapOriginalToRenamedRegisterIndex, replaceSources_renamingTable]

/-- Along a route from a block that can be reached. -/
theorem Solution.traceRoute (hf : MovableFunction table f) (hstart : NoEdgeToStart f)
    (hsol : Solution table f equalValueMaps) (visits : List (Visit W)) :
    ∀ {b last : Nat} {σ : State W}, f.Reachable b →
      HoldsAtStart table f equalValueMaps b σ.locals → f.IsRoute b visits last →
      (applyEqualValues table equalValueMaps f).traceRoute m table σ visits last =
        f.traceRoute m table σ visits last := by
  induction visits with
  | nil =>
      intro b last σ hreach hentry hroute
      have hb : b = last := hroute
      subst hb
      rw [Function.traceRoute, Function.traceRoute, operationsOf_applyEqualValues,
        (hsol.block hf hstart hreach hentry).1]
  | cons visit visits ih =>
      intro b last σ hreach hentry hroute
      obtain ⟨hb, op, c, hedge, hroute⟩ := hroute
      subst hb
      have hnext : f.leave m table σ visit =
          ⟨fun r => (execOperations m table σ
              ((f.operationsOf visit.block).take visit.enqueue)).locals
                (op.mapOriginalToRenamedRegisterIndex r),
            visit.between (execOperations m table σ (f.operationsOf visit.block)).world⟩ := by
        simp only [Function.leave, hedge.position]
      rw [Function.traceRoute, Function.traceRoute, operationsOf_applyEqualValues,
        (hsol.block hf hstart hreach hentry).1, hsol.leave hf hstart hreach hentry]
      rw [ih (hreach.step hedge) ?_ hroute]
      rw [hnext]
      exact hsol.handover hf hstart hreach hentry hedge

end

/-! ## The pass -/

/-- On every route from the start of the function, whatever the parameters and the rest of
    the machine, every operation reads the same values in both functions. -/
def SameReads (table : RegisterTable) (f f' : Function) : Prop :=
  ∀ {W : Type} (m : Machine W) (σ : State W) (visits : List (Visit W)) (last : Nat),
    f.IsRoute f.start visits last →
      f'.traceRoute m table σ visits last = f.traceRoute m table σ visits last

/-- Three local registers of eight bits: a variable, the name its write gets, and a
    result. -/
def threeLocals : RegisterTable :=
  List.replicate 3 ⟨8, .local, false, false, none⟩

/-- A block that reads the variable and sets it to five. -/
def readThenSet (successor : Nat) : BasicBlock :=
  { operations :=
      [{ opcode := .unaryOp .invert, src := [.register 0], dst := [.register 2] },
       { opcode := .mov, src := [.literal ⟨5, 8⟩], dst := [.register 1] }]
    stages :=
      [{ operations :=
          [{ opcode := .enqueue false, src := [.register 1]
             successorBlock := some successor
             renamingTable := (∅ : RegisterIndexMap).insert 0 1
             reverseRenamingTable := (∅ : RegisterIndexMap).insert 1 0 }] }] }

/-- The operation only reads the variable. -/
structure OnlyUses (op : Operation) : Prop where
  writes : op.writes = []
  reads : op.reads = [0]
  stays : op.successorBlock = none
  notMove : op.opcode ≠ .mov

/-- A function that starts with such a block, and else only reads the variable. -/
structure StartsWithSet (f : Function) (successor : Nat) : Prop where
  first : f.basicBlocks[0]? = some (readThenSet successor)
  rest : ∀ b ≠ 0, ∀ op ∈ f.operationsOf b, OnlyUses op

section

variable {f : Function} {successor : Nat}

/-- The places of the operations. -/
theorem StartsWithSet.positions (h : StartsWithSet f successor) {b i : Nat} {op : Operation}
    (hop : (f.operationsOf b)[i]? = some op) :
    (b = 0 ∧ (readThenSet successor).allOperations[i]? = some op) ∨ (b ≠ 0 ∧ OnlyUses op) := by
  by_cases hb : b = 0
  · subst hb
    rw [Function.operationsOf, h.first] at hop
    exact .inl ⟨rfl, hop⟩
  · exact .inr ⟨hb, h.rest b hb op (List.mem_of_getElem? hop)⟩

theorem StartsWithSet.writtenAt (h : StartsWithSet f successor) {b i r : Nat}
    (hwritten : WrittenAt f b i r) : b = 0 ∧ ((i = 0 ∧ r = 2) ∨ (i = 1 ∧ r = 1)) := by
  obtain ⟨op, hop, hmem⟩ := hwritten
  rcases h.positions hop with ⟨rfl, hat⟩ | ⟨-, huses⟩
  · refine ⟨rfl, ?_⟩
    rcases i with _ | _ | _ | i
    · cases hat
      exact .inl ⟨rfl, List.mem_singleton.mp hmem⟩
    · cases hat
      exact .inr ⟨rfl, List.mem_singleton.mp hmem⟩
    · cases hat
      exact nomatch hmem
    · exact nomatch hat
  · rw [huses.writes] at hmem
    exact nomatch hmem

theorem StartsWithSet.edge (h : StartsWithSet f successor) {b i c : Nat} {op : Operation}
    (hedge : f.Edge b i op c) : b = 0 ∧ i = 2 ∧ c = successor ∧
      op.renamingTable = (∅ : RegisterIndexMap).insert 0 1 ∧
      op.reverseRenamingTable = (∅ : RegisterIndexMap).insert 1 0 := by
  obtain ⟨hop, hleads⟩ := hedge
  rw [Function.successorOf, Option.filter_eq_some_iff] at hleads
  rcases h.positions hop with ⟨rfl, hat⟩ | ⟨-, huses⟩
  · rcases i with _ | _ | _ | i
    · cases hat
      cases hleads.1
    · cases hat
      cases hleads.1
    · cases hat
      exact ⟨rfl, rfl, (Option.some.inj hleads.1).symm, rfl, rfl⟩
    · cases hat
  · rw [huses.stays] at hleads
    cases hleads.1

theorem StartsWithSet.renamed (h : StartsWithSet f successor) : MovableFunction threeLocals f := by
  have hentry : ∀ {b i c o r : Nat} {op : Operation}, f.Edge b i op c →
      op.renamingTable[o]? = some r → o = 0 ∧ r = 1 := by
    intro b i c o r op hedge htable
    rw [(h.edge hedge).2.2.2.1, getElem?_insert, Std.ExtTreeMap.getElem?_empty] at htable
    split at htable
    next ho => exact ⟨ho.symm, (Option.some.inj htable).symm⟩
    next => exact nomatch htable
  refine ⟨⟨fun {r b b' i i'} _ hw hw' => ?_, fun {b i op c} hedge o n => ?_,
    fun {b i op c o r} hedge htable => ?_, fun {b i op c o r} hedge htable b' i' hw => ?_⟩,
    fun {b i op r d j} hop hr _ hw => ?_, fun {b op} hop hmov => ?_,
    fun {b i op c} hedge _ => ?_⟩
  · have := h.writtenAt hw
    have := h.writtenAt hw'
    omega
  · obtain ⟨-, -, -, htable, hreverse⟩ := h.edge hedge
    rw [htable, hreverse, getElem?_insert, getElem?_insert, Std.ExtTreeMap.getElem?_empty,
      Std.ExtTreeMap.getElem?_empty]
    split <;> split <;> simp_all
  · obtain ⟨rfl, rfl⟩ := hentry hedge htable
    exact ⟨rfl, rfl, rfl⟩
  · obtain ⟨rfl, rfl⟩ := hentry hedge htable
    have := h.writtenAt hw
    omega
  · have hw' := h.writtenAt hw
    rcases h.positions hop with ⟨rfl, hat⟩ | ⟨-, huses⟩
    · refine .inl ⟨hw'.1, ?_⟩
      rcases i with _ | _ | _ | i
      · cases hat
        have : r = 0 := List.mem_singleton.mp hr
        omega
      · cases hat
        exact nomatch hr
      · omega
      · exact nomatch hat
    · rw [huses.reads, List.mem_singleton] at hr
      omega
  · obtain ⟨j, -, hat⟩ := mem_bodyOf_position hop
    rcases h.positions hat with ⟨rfl, hat'⟩ | ⟨-, huses⟩
    · rcases j with _ | _ | _ | j
      · cases hat'
        exact nomatch hmov
      · cases hat'
        exact .literal ⟨5, 8⟩ 1 rfl rfl rfl (by decide)
      · cases hat'
        exact nomatch hmov
      · exact nomatch hat'
    · exact absurd hmov huses.notMove
  · obtain ⟨rfl, rfl, -⟩ := h.edge hedge
    rw [stagesAt, h.first]
    exact Nat.le_refl 2

end

/-- The block leads to a second one, which reads the variable. -/
def setThenUse : Function :=
  ⟨0, [readThenSet 1, { operations := [{ opcode := .print, src := [.register 0] }] }]⟩

theorem setThenUse_startsWithSet : StartsWithSet setThenUse 1 := by
  refine ⟨rfl, fun b hb op hop => ?_⟩
  rcases b with _ | _ | b
  · exact absurd rfl hb
  · rw [List.mem_singleton.mp hop]
    exact ⟨rfl, rfl, rfl, nofun⟩
  · exact nomatch hop

theorem setThenUse_noEdgeToStart : NoEdgeToStart setThenUse := by
  intro b i op hedge
  exact absurd (setThenUse_startsWithSet.edge hedge).2.2.1 (by decide)

/-- The block leads back to itself. -/
def selfLoop : Function := ⟨0, [readThenSet 0]⟩

theorem selfLoop_startsWithSet : StartsWithSet selfLoop 0 := by
  refine ⟨rfl, fun b hb op hop => ?_⟩
  rcases b with _ | b
  · exact absurd rfl hb
  · exact nomatch hop

end Kanagawa.Optimize
