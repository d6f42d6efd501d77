/-
  Kanagawa.Optimize.KillMovesMaps

  What is in the maps of `KillMoves` while its work list runs: every equality of a
  block is left by a move of the block, or comes in through every `Enqueue` that
  leads to it.  The loop terminates, and its assertions hold when every block can be
  reached.
-/
import Kanagawa.Arith.Exact
import Kanagawa.Optimize.KillMoves
import Kanagawa.Optimize.Renamed

namespace Kanagawa.Optimize

open IR Lib Lib.Except Lib.NatMap Lower

variable {table : RegisterTable} {f : Function} {optimizing : Bool}

/-! ## The functions `KillMoves` works on -/

/-- The number of operations of a block that stand before its stages. -/
def stagesAt (f : Function) (b : Nat) : Nat :=
  match f.basicBlocks[b]? with
  | some basicBlock =>
      basicBlock.startConditionOperations.length + basicBlock.operations.length
  | none => 0

/-- A move of `_operations`: it writes a local register (`WriteGlobal` writes globals), and
    its source has a width that the arithmetic accepts. -/
inductive MoveShape (table : RegisterTable) (op : Operation) : Prop
  | literal (l : Literal) (dst : Nat) (hsrc : op.src = [.literal l])
      (hdst : op.dst = [.register dst]) (hlocal : isLocalVariable table dst)
      (hpos : 0 < l.width)
  | register (r dst : Nat) (hsrc : op.src = [.register r])
      (hdst : op.dst = [.register dst]) (hlocal : isLocalVariable table dst)
      (hpos : 0 < (table.desc r).width) (hle : (table.desc r).width ≤ 2 ^ 32)

/-- A renamed function in the form `KillMoves` takes it.  `Rename` lets only the block that
    writes a register read it; the passes may let other blocks read it directly, so what
    is required is weaker. -/
structure MovableFunction (table : RegisterTable) (f : Function) : Prop
    extends RenamedFunction table f where
  /-- where a register is read it has been written, in the block or on every path to it -/
  assigned : ∀ {b i op r d j}, (f.operationsOf b)[i]? = some op → r ∈ op.reads →
    isLocalVariable table r → WrittenAt f d j r →
    (d = b ∧ j < i) ∨ ∀ visited, f.Path visited b → d ∈ visited
  moves : ∀ {b op}, op ∈ f.bodyOf b → op.opcode = .mov → MoveShape table op
  /-- a block passes control on from its stages; an `Enqueue` before them is a call, and
      leads to the start of a function -/
  calls : ∀ {b i op c}, f.Edge b i op c → c ≠ f.start → stagesAt f b ≤ i

theorem mem_bodyOf_position {b : Nat} {op : Operation} (h : op ∈ f.bodyOf b) :
    ∃ j < stagesAt f b, (f.operationsOf b)[j]? = some op := by
  unfold Function.bodyOf at h
  unfold stagesAt Function.operationsOf
  cases hb : f.basicBlocks[b]? with
  | none =>
      rw [hb] at h
      exact nomatch h
  | some basicBlock =>
      rw [hb] at h
      dsimp only at h ⊢
      obtain ⟨j, hj, hop⟩ := List.getElem_of_mem h
      refine ⟨basicBlock.startConditionOperations.length + j, by omega, ?_⟩
      rw [BasicBlock.allOperations, List.append_assoc,
        List.getElem?_append_right (Nat.le_add_right _ _), Nat.add_sub_cancel_left,
        List.getElem?_append_left hj, List.getElem?_eq_getElem hj, hop]

namespace MovableFunction

/-- What a reachable block reads and writes is read after it is written. -/
theorem written_before_read (hf : MovableFunction table f) {b i j r : Nat} {op : Operation}
    (hreach : f.Reachable b) (hop : (f.operationsOf b)[i]? = some op) (hr : r ∈ op.reads)
    (hlocal : isLocalVariable table r) (hwritten : WrittenAt f b j r) : j < i := by
  rcases hf.assigned hop hr hlocal hwritten with ⟨-, hlt⟩ | hall
  · exact hlt
  · -- On the first arrival at the block, the block itself was not visited
    obtain ⟨visited, hpath, hnot⟩ := hreach.first_arrival
    exact absurd (hall visited hpath) hnot

/-- A register that an operation reads keeps its value from there on. -/
theorem locals_after_read (hf : MovableFunction table f) {W : Type} {m : Machine W}
    {σ : State W} {b j i r : Nat} {op : Operation} (hreach : f.Reachable b)
    (hop : (f.operationsOf b)[j]? = some op) (hr : r ∈ op.reads)
    (hlocal : isLocalVariable table r) (hji : j ≤ i) :
    (execOperations m table σ ((f.operationsOf b).take i)).locals r =
      (execOperations m table σ ((f.operationsOf b).take j)).locals r := by
  refine execOperations_take_of_not_written hji fun k op' hk _ hop' hmem => ?_
  have := hf.written_before_read hreach hop hr hlocal ⟨op', hop', hmem⟩
  omega

end MovableFunction

/-! ## Equalities that pass an `Enqueue` -/

/-- An equality that an `Enqueue` passes on to the successor. -/
def Carries (op : Operation) (equalValues : EqualValueMap) (k : Nat) (v : SourceOperand) : Prop :=
  ∃ r o, equalValues[r]? = some o ∧ isOverwritten op o = false ∧
    op.renamingTable[r]? = none ∧ k = op.mapRenamedToOriginalRegisterIndex r ∧
    v = renameEqualOperand op o

theorem Carries.mono {op : Operation} {equalValues equalValues' : EqualValueMap} {k : Nat}
    {v : SourceOperand} (h : Carries op equalValues k v)
    (hext : Extends equalValues equalValues') : Carries op equalValues' k v := by
  obtain ⟨r, o, hmem, hrest⟩ := h
  exact ⟨r, o, hext r o hmem, hrest⟩

/-- An `Enqueue` passes on one equality for a register. -/
theorem Carries.unique {op : Operation} (htables : InverseTables op)
    {equalValues : EqualValueMap} {k : Nat} {v v' : SourceOperand}
    (h : Carries op equalValues k v) (h' : Carries op equalValues k v') : v = v' := by
  obtain ⟨r, o, hmem, -, hnone, hk, rfl⟩ := h
  obtain ⟨r', o', hmem', -, hnone', hk', rfl⟩ := h'
  have hr := mapRenamed_injective htables hnone hnone' (hk ▸ hk')
  rw [hr, hmem'] at hmem
  rw [Option.some.inj hmem]

theorem renameEqualValues_carries {equalValues : EqualValueMap} {op : Operation} {k : Nat}
    {v : SourceOperand} (h : (renameEqualValues equalValues op)[k]? = some v) :
    Carries op equalValues k v := by
  have hfold : ∀ (l : List (Nat × SourceOperand)) (acc : EqualValueMap),
      (∀ p ∈ l, equalValues[p.1]? = some p.2) →
      (∀ k v, acc[k]? = some v → Carries op equalValues k v) →
      ∀ k v, (l.foldl (renameEqualValue op) acc)[k]? = some v → Carries op equalValues k v := by
    intro l
    induction l with
    | nil => exact fun acc _ hacc => hacc
    | cons p l ih =>
        intro acc hl hacc
        refine ih _ (fun q hq => hl q (List.mem_cons_of_mem _ hq)) fun k v hkv => ?_
        unfold renameEqualValue at hkv
        split at hkv
        next => exact hacc k v hkv
        next hover =>
          split at hkv
          next => exact hacc k v hkv
          next hcontains =>
            rw [getElem?_insert] at hkv
            split at hkv
            next hk =>
              refine ⟨p.1, p.2, hl p List.mem_cons_self, eq_false_of_ne_true hover, ?_,
                hk.symm, (Option.some.inj hkv).symm⟩
              rwa [contains_eq, Bool.not_eq_true, Option.isSome_eq_false_iff,
                Option.isNone_iff_eq_none] at hcontains
            next => exact hacc k v hkv
  refine hfold _ ∅ (fun p hp => mem_toList_iff.mp hp) (fun k v hkv => ?_) k v h
  rw [Std.ExtTreeMap.getElem?_empty] at hkv
  exact nomatch hkv

/-! ## Equalities that moves leave -/

/-- The move leaves the equality. -/
inductive RecordedBy (table : RegisterTable) (op : Operation) (k : Nat) : SourceOperand → Prop
  | literal {l : Literal} (hmov : op.opcode = .mov) (hsrc : op.src = [.literal l])
      (hdst : op.dst = [.register k]) (hmask : op.signExtendSourceMask = 0) :
      RecordedBy table op k
        (.literal ⟨truncate l.value (table.desc k).width, (table.desc k).width⟩)
  | register {r : Nat} (hmov : op.opcode = .mov) (hsrc : op.src = [.register r])
      (hdst : op.dst = [.register k]) (hlocal : isLocalVariable table r)
      (hwidth : (table.desc k).width = (table.desc r).width) :
      RecordedBy table op k (.register r)

/-- A move of the block leaves the equality. -/
def Recorded (table : RegisterTable) (f : Function) (b k : Nat) (v : SourceOperand) : Prop :=
  ∃ op ∈ f.bodyOf b, RecordedBy table op k v

theorem isLocalVariable_of_allowedInKillMoves {r : Nat}
    (h : (table.desc r).type.allowedInKillMoves = true) : isLocalVariable table r := by
  unfold isLocalVariable
  cases htype : (table.desc r).type with
  | «local» => rfl
  | _ =>
      rw [htype] at h
      exact nomatch h

/-- A move is accepted, and leaves at most its own equality. -/
theorem recordMove_spec {b : Nat} {op : Operation} (hop : op ∈ f.bodyOf b)
    (hshape : op.opcode = .mov → MoveShape table op) (equalValues : EqualValueMap) :
    ∃ equalValues', recordMove table optimizing equalValues op = .ok equalValues' ∧
      ∀ k v, equalValues'[k]? = some v →
        equalValues[k]? = some v ∨ Recorded table f b k v := by
  have hkeep : ∀ k v, equalValues[k]? = some v →
      equalValues[k]? = some v ∨ Recorded table f b k v := fun _ _ => Or.inl
  by_cases hmov : op.opcode = .mov
  · rcases hshape hmov with ⟨l, dst, hsrc, hdst, hlocal, -⟩ | ⟨r, dst, hsrc, hdst, hlocal, -, -⟩
    · simp only [recordMove, hmov, hsrc, hdst]
      split
      · exact ⟨_, rfl, hkeep⟩
      · split
        next hmask =>
          refine ⟨_, rfl, fun k v hkv => ?_⟩
          rw [getElem?_insert] at hkv
          split at hkv
          next hk =>
            subst hk
            rw [← Option.some.inj hkv]
            exact .inr ⟨op, hop, .literal hmov hsrc hdst hmask⟩
          next => exact .inl hkv
        next => exact ⟨_, rfl, hkeep⟩
    · simp only [recordMove, hmov, hsrc, hdst]
      split
      next hallowed =>
        split
        · exact ⟨_, rfl, hkeep⟩
        · split
          next hwidth =>
            refine ⟨_, rfl, fun k v hkv => ?_⟩
            rw [getElem?_insert] at hkv
            split at hkv
            next hk =>
              subst hk
              rw [← Option.some.inj hkv]
              exact .inr ⟨op, hop, .register hmov hsrc hdst
                (isLocalVariable_of_allowedInKillMoves hallowed) hwidth⟩
            next => exact .inl hkv
          next => exact ⟨_, rfl, hkeep⟩
      next => exact ⟨_, rfl, hkeep⟩
  · refine ⟨equalValues, ?_, hkeep⟩
    unfold recordMove
    split
    next h => exact absurd h hmov
    next => rfl

/-- The scan over the moves of a block. -/
theorem recordMoves_spec (hf : MovableFunction table f) (b : Nat) :
    ∃ equalValues, (f.bodyOf b).foldlM (recordMove table optimizing) ∅ = .ok equalValues ∧
      ∀ k v, equalValues[k]? = some v → Recorded table f b k v := by
  refine foldlM_succeeds (fun equalValues : EqualValueMap =>
    ∀ k v, equalValues[k]? = some v → Recorded table f b k v) (fun op hop m hm => ?_) ?_
  · obtain ⟨m', hok, hm'⟩ := recordMove_spec hop (hf.moves hop) m
    exact ⟨m', hok, fun k v hkv => (hm' k v hkv).elim (hm k v) id⟩
  · intro k v hkv
    rw [Std.ExtTreeMap.getElem?_empty] at hkv
    exact nomatch hkv

/-! ## Equalities at the start of a block -/

/-- Every `Enqueue` that leads to the block passes the equality on, and there is one. -/
structure Inherited (f : Function) (equalValueMaps : Nat → EqualValueMap) (c k : Nat)
    (v : SourceOperand) : Prop where
  some : ∃ b i op, f.Edge b i op c
  all : ∀ {b i op}, f.Edge b i op c → Carries op (equalValueMaps b) k v

/-- Each equality of a block is left by one of its moves or holds at its start. -/
def Justified (table : RegisterTable) (f : Function) (equalValueMaps : Nat → EqualValueMap) :
    Prop :=
  ∀ (c k : Nat) (v : SourceOperand), (equalValueMaps c)[k]? = some v →
    Recorded table f c k v ∨ Inherited f equalValueMaps c k v

theorem Inherited.mono {equalValueMaps equalValueMaps' : Nat → EqualValueMap} {c k : Nat}
    {v : SourceOperand} (h : Inherited f equalValueMaps c k v)
    (hext : ∀ b, Extends (equalValueMaps b) (equalValueMaps' b)) :
    Inherited f equalValueMaps' c k v :=
  ⟨h.some, fun hedge => (h.all hedge).mono (hext _)⟩

theorem RecordedBy.writes {op : Operation} {k : Nat} {v : SourceOperand}
    (h : RecordedBy table op k v) : op.writes = [k] := by
  rcases h with ⟨-, -, hdst, -⟩ | ⟨-, -, hdst, -, -⟩
  all_goals
    rw [Operation.writes, hdst]
    rfl

theorem RecordedBy.reads {op : Operation} {k r : Nat} (h : RecordedBy table op k (.register r)) :
    r ∈ op.reads := by
  cases h with
  | register _ hsrc =>
      rw [Operation.reads, hsrc]
      exact List.mem_singleton_self r

/-- The move that leaves an equality, by its position. -/
theorem Recorded.position {b k : Nat} {v : SourceOperand} (h : Recorded table f b k v) :
    ∃ j < stagesAt f b, ∃ op, (f.operationsOf b)[j]? = some op ∧ RecordedBy table op k v := by
  obtain ⟨op, hop, hby⟩ := h
  obtain ⟨j, hj, hat⟩ := mem_bodyOf_position hop
  exact ⟨j, hj, op, hat, hby⟩

theorem Recorded.writtenAt {b k : Nat} {v : SourceOperand} (h : Recorded table f b k v) :
    ∃ j < stagesAt f b, WrittenAt f b j k := by
  obtain ⟨j, hj, op, hat, hby⟩ := h.position
  exact ⟨j, hj, op, hat, hby.writes ▸ List.mem_singleton_self k⟩

/-- An equality of local registers and literals of one width. -/
structure TypedEquality (table : RegisterTable) (k : Nat) (v : SourceOperand) : Prop where
  isLocal : isLocalVariable table k
  operand : (∃ l : Literal, v = .literal l ∧ l.value < 2 ^ (table.desc k).width) ∨
    ∃ r, v = .register r ∧ isLocalVariable table r ∧
      (table.desc r).width = (table.desc k).width

theorem RecordedBy.typed {op : Operation} (hshape : op.opcode = .mov → MoveShape table op)
    {k : Nat} {v : SourceOperand} (h : RecordedBy table op k v) : TypedEquality table k v := by
  have hdstLocal : op.opcode = .mov → op.dst = [.register k] → isLocalVariable table k := by
    intro hmov hdst
    rcases hshape hmov with ⟨_, dst, _, hdst', hlocal, _⟩ | ⟨_, dst, _, hdst', hlocal, _, _⟩
    all_goals
      rw [hdst', List.cons.injEq, DestinationOperand.register.injEq] at hdst
      exact hdst.1 ▸ hlocal
  rcases h with ⟨hmov, -, hdst, -⟩ | ⟨hmov, -, hdst, hlocal, hwidth⟩
  · exact ⟨hdstLocal hmov hdst, .inl ⟨_, rfl, truncate_lt _ _⟩⟩
  · exact ⟨hdstLocal hmov hdst, .inr ⟨_, rfl, hlocal, hwidth.symm⟩⟩

theorem Recorded.typed (hf : MovableFunction table f) {b k : Nat} {v : SourceOperand}
    (h : Recorded table f b k v) : TypedEquality table k v := by
  obtain ⟨op, hop, hby⟩ := h
  exact hby.typed (hf.moves hop)

theorem Carries.typed (hf : MovableFunction table f) {b i c k : Nat} {op : Operation}
    {v : SourceOperand} (hedge : f.Edge b i op c) {equalValues : EqualValueMap}
    (htyped : ∀ (r : Nat) (o : SourceOperand), equalValues[r]? = some o → TypedEquality table r o)
    (h : Carries op equalValues k v) : TypedEquality table k v := by
  obtain ⟨r, o, hmem, -, -, rfl, rfl⟩ := h
  obtain ⟨hlocal, hoperand⟩ := htyped r o hmem
  obtain ⟨hlocal', hwidth⟩ := hf.mapRenamed_sameKind hedge hlocal
  refine ⟨hlocal', ?_⟩
  rw [hwidth]
  rcases hoperand with ⟨l, rfl, hlt⟩ | ⟨r', rfl, hr', hw⟩
  · exact .inl ⟨l, rfl, hlt⟩
  · obtain ⟨hlocal'', hwidth'⟩ := hf.mapRenamed_sameKind hedge hr'
    exact .inr ⟨_, rfl, hlocal'', hwidth'.trans hw⟩

section

variable {equalValueMaps : Nat → EqualValueMap}

/-- The function's first block has no predecessor inside the function. -/
def NoEdgeToStart (f : Function) : Prop := ∀ {b i op}, ¬ f.Edge b i op f.start

/-- When a block starts with an equality for a register that is written, it has been
    written on the way. -/
theorem Inherited.key_visited (hf : MovableFunction table f) (hstart : NoEdgeToStart f)
    (hjust : Justified table f equalValueMaps) {visited : List Nat} {c k : Nat}
    (hpath : f.Path visited c) {v : SourceOperand} (h : Inherited f equalValueMaps c k v)
    {d j : Nat} (hlocal : isLocalVariable table k) (hwritten : WrittenAt f d j k) :
    d ∈ visited := by
  induction hpath generalizing v with
  | start =>
      obtain ⟨b, i, op, hedge⟩ := h.some
      exact absurd hedge hstart
  | @step visited b i c op hpath hedge ih =>
      obtain ⟨r, o, hmem, -, -, hk, -⟩ := h.all hedge
      -- A written register is no original, so it had this name in the predecessor
      have hr : k = r := by
        rw [hk] at hwritten ⊢
        exact hf.mapRenamed_of_written hedge hwritten
      rw [← hr] at hmem
      rcases hjust b k o hmem with hrec | hinh
      · obtain ⟨j', -, hj'⟩ := hrec.writtenAt
        rw [(hf.writtenOnce hlocal hwritten hj').1]
        exact List.mem_append_right _ (List.mem_singleton_self b)
      · exact List.mem_append_left _ (ih hinh)

/-- The same for the register that the equality names. -/
theorem Inherited.operand_visited (hf : MovableFunction table f) (hstart : NoEdgeToStart f)
    (hjust : Justified table f equalValueMaps) {visited : List Nat} {c k o : Nat}
    (hpath : f.Path visited c) (h : Inherited f equalValueMaps c k (.register o))
    {d j : Nat} (hlocal : isLocalVariable table o) (hwritten : WrittenAt f d j o) :
    d ∈ visited := by
  induction hpath generalizing k with
  | start =>
      obtain ⟨b, i, op, hedge⟩ := h.some
      exact absurd hedge hstart
  | @step visited b i c op hpath hedge ih =>
      obtain ⟨r, v, hmem, -, -, -, hv⟩ := h.all hedge
      have hvo : v = .register o := by
        cases v with
        | register o' =>
            have ho : o = op.mapRenamedToOriginalRegisterIndex o' := SourceOperand.register.inj hv
            rw [ho] at hwritten ⊢
            rw [hf.mapRenamed_of_written hedge hwritten]
        | _ => exact nomatch hv
      rw [hvo] at hmem
      rcases hjust b r _ hmem with hrec | hinh
      · -- The move reads the register, so it was written before
        obtain ⟨j', -, op', hat, hby⟩ := hrec.position
        rcases hf.assigned hat hby.reads hlocal hwritten with ⟨rfl, -⟩ | hall
        · exact List.mem_append_right _ (List.mem_singleton_self d)
        · exact List.mem_append_left _ (hall visited hpath)
      · exact List.mem_append_left _ (ih hinh)

/-- A block that can be reached does not write the registers of the equalities with which
    it starts. -/
theorem Inherited.not_written (hf : MovableFunction table f) (hstart : NoEdgeToStart f)
    (hjust : Justified table f equalValueMaps) {c k : Nat} (hreach : f.Reachable c)
    {v : SourceOperand} (h : Inherited f equalValueMaps c k v) :
    (isLocalVariable table k → ∀ j, ¬ WrittenAt f c j k) ∧
      ∀ o, v = .register o → isLocalVariable table o → ∀ j, ¬ WrittenAt f c j o := by
  obtain ⟨visited, hpath, hnot⟩ := hreach.first_arrival
  refine ⟨fun hlocal j hwritten => ?_, fun o hv hlocal j hwritten => ?_⟩
  · exact hnot (h.key_visited hf hstart hjust hpath hlocal hwritten)
  · subst hv
    exact hnot (h.operand_visited hf hstart hjust hpath hlocal hwritten)

end

/-! ## The inputs of a block -/

/-- The values are equalities that the `Enqueue` passes on. -/
def PassedOn (equalValueMaps : Nat → EqualValueMap) (b _ : Nat) (op : Operation)
    (values : EqualValueMap) : Prop :=
  ∀ (k : Nat) (v : SourceOperand), values[k]? = some v → Carries op (equalValueMaps b) k v

theorem PassedOn.mono {equalValueMaps equalValueMaps' : Nat → EqualValueMap} {b i : Nat}
    {op : Operation} {values : EqualValueMap} (h : PassedOn equalValueMaps b i op values)
    (hext : ∀ b, Extends (equalValueMaps b) (equalValueMaps' b)) :
    PassedOn equalValueMaps' b i op values :=
  fun k v hkv => (h k v hkv).mono (hext b)

/-- All predecessors agree: the equality holds at the start of the block. -/
theorem inherited_of_shouldInsert {equalValueMaps : Nat → EqualValueMap}
    {inputValueMap : Nat → PredecessorMap SourceOperand}
    (h : Inputs f (PassedOn equalValueMaps) (fun _ _ => True) inputValueMap) {c k : Nat}
    {v : SourceOperand} (hne : inputValueMap c ≠ [])
    (hagree : shouldInsert (inputValueMap c) k v = true) : Inherited f equalValueMaps c k v := by
  obtain ⟨hsome, hall⟩ := h.agreed hne hagree
  refine ⟨hsome, fun {b i op} hedge => ?_⟩
  obtain ⟨values, hkv, hmem⟩ := hall hedge
  exact h.at hedge.position hmem k v hkv

/-! ## Initialization -/

/-- The walk over the operations of a block puts an input for each `Enqueue`. -/
theorem initializeSuccessors_spec {b : Nat} {equalValueMaps : Nat → EqualValueMap}
    {done : Nat → Nat → Prop} (l : List (Operation × Nat)) :
    ∀ {inputValueMap : Nat → PredecessorMap SourceOperand},
      (∀ p ∈ l, (f.operationsOf b)[p.2]? = some p.1) →
      Inputs f (PassedOn equalValueMaps) done inputValueMap →
      Inputs f (PassedOn equalValueMaps) (fun b' i => done b' i ∨ (b' = b ∧ ∃ p ∈ l, p.2 = i))
        (l.foldl (initializeSuccessor f b (equalValueMaps b)) inputValueMap) := by
  induction l generalizing done with
  | nil =>
      intro inputValueMap _ h
      refine h.weaken fun b' i hdone => hdone.resolve_right ?_
      rintro ⟨-, p, hp, -⟩
      exact nomatch hp
  | cons p l ih =>
      intro inputValueMap hl h
      have hrest := fun q hq => hl q (List.mem_cons_of_mem p hq)
      rw [List.foldl_cons]
      cases hsucc : f.successorOf p.1 with
      | none =>
          have hsame : initializeSuccessor f b (equalValueMaps b) inputValueMap p =
              inputValueMap := by rw [initializeSuccessor, hsucc]
          rw [hsame]
          refine ⟨(ih hrest h).entry, fun hedge hdone => (ih hrest h).complete hedge ?_⟩
          refine hdone.imp_right ?_
          rintro ⟨rfl, q, hq, rfl⟩
          rcases List.mem_cons.mp hq with rfl | hq
          · -- This operation leads nowhere in the function
            have hop := hedge.position.symm.trans (hl q List.mem_cons_self)
            have hleads := hedge.leads
            rw [Option.some.inj hop, hsucc] at hleads
            exact nomatch hleads
          · exact ⟨rfl, q, hq, rfl⟩
      | some c =>
          have hedge : f.Edge b p.2 p.1 c := ⟨hl p List.mem_cons_self, hsucc⟩
          have hstep := h.set hedge fun k v => renameEqualValues_carries
          rw [initializeSuccessor, hsucc]
          refine (ih hrest hstep).weaken fun b' i hdone => ?_
          rcases hdone with hdone | ⟨rfl, q, hq, rfl⟩
          · exact .inl (.inl hdone)
          · rcases List.mem_cons.mp hq with rfl | hq
            · exact .inl (.inr ⟨rfl, rfl⟩)
            · exact .inr ⟨rfl, q, hq, rfl⟩

/-- Both maps after the first blocks. -/
structure Initialized (table : RegisterTable) (f : Function) (n : Nat) (s : KillMovesState) :
    Prop where
  inputs : Inputs f (PassedOn s.equalValueMaps) (fun b _ => b < n) s.inputValueMap
  recorded : ∀ (c k : Nat) (v : SourceOperand), (s.equalValueMaps c)[k]? = some v →
    Recorded table f c k v
  untouched : ∀ c, n ≤ c → s.equalValueMaps c = ∅

theorem initializeBlock_spec (hf : MovableFunction table f) {n : Nat} {s : KillMovesState}
    (h : Initialized table f n s) :
    ∃ s', initializeBlock table optimizing f s n = .ok s' ∧ Initialized table f (n + 1) s' := by
  obtain ⟨equalValues, hok, hrec⟩ := recordMoves_spec hf n
  rw [← h.untouched n (Nat.le_refl n)] at hok
  refine ⟨_, by rw [initializeBlock, hok]; rfl, ?_⟩
  have hself : Function.update s.equalValueMaps n equalValues n = equalValues :=
    Function.update_self ..
  constructor
  · have hext : ∀ b, Extends (s.equalValueMaps b)
        (Function.update s.equalValueMaps n equalValues b) := by
      intro b k v hkv
      by_cases hb : b = n
      · rw [hb, h.untouched n (Nat.le_refl n), Std.ExtTreeMap.getElem?_empty] at hkv
        exact nomatch hkv
      · rwa [Function.update_of_ne hb]
    have hwalk := initializeSuccessors_spec (f.operationsOf n).zipIdx
      (fun p hp => List.mem_zipIdx_iff_getElem?.mp hp) 
      (h.inputs.mono fun hp => hp.mono hext)
    rw [hself] at hwalk
    refine ⟨hwalk.entry, fun {b i op c} hedge hdone => hwalk.complete hedge ?_⟩
    rcases Nat.lt_succ_iff_lt_or_eq.mp hdone with hlt | rfl
    · exact .inl hlt
    · exact .inr ⟨rfl, (op, i), List.mem_zipIdx_iff_getElem?.mpr hedge.position, rfl⟩
  · intro c k v hkv
    dsimp only at hkv
    by_cases hc : c = n
    · subst hc
      rw [hself] at hkv
      exact hrec k v hkv
    · rw [Function.update_of_ne hc] at hkv
      exact h.recorded c k v hkv
  · intro c hc
    dsimp only
    rw [Function.update_of_ne (by omega)]
    exact h.untouched c (by omega)

theorem initializeMaps_spec (hf : MovableFunction table f) (optimizing : Bool) :
    ∃ s, initializeMaps table optimizing f = .ok s ∧
      Initialized table f f.basicBlocks.length s := by
  unfold initializeMaps
  induction f.basicBlocks.length with
  | zero =>
      refine ⟨_, rfl, ⟨nofun, fun _ hlt => absurd hlt (Nat.not_lt_zero _)⟩, fun c k v hkv => ?_,
        fun _ _ => rfl⟩
      rw [Std.ExtTreeMap.getElem?_empty] at hkv
      exact nomatch hkv
  | succ n ih =>
      obtain ⟨s, hok, hs⟩ := ih
      obtain ⟨s', hok', hs'⟩ := initializeBlock_spec hf hs
      refine ⟨s', ?_, hs'⟩
      rw [List.range_succ, List.foldlM_append, hok, ok_bind, List.foldlM_cons, hok', ok_bind]
      rfl

end Kanagawa.Optimize
