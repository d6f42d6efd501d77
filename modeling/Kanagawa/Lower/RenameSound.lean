/-
  Kanagawa.Lower.RenameSound

  Renaming gives single assignment and preserves meaning.

  While a block is renamed, the thread of the original block and the thread of
  the renamed one are related through the renaming table: the original value of a
  register is found in the register the table maps it to.  Registers handed out by
  the pass are new, so no write of the renamed block disturbs another one.
-/
import Kanagawa.Lower.Rename
import Kanagawa.Lib.NatMap

namespace Kanagawa.Lower

open IR Lib.Except Lib.NatMap

/-! ## The invariant of the walk -/

/-- What the state of the walk satisfies, for a block that starts with `base`: the
    table maps renameable registers of the base to new ones of the same description,
    and different registers to different ones. -/
structure RenameInvariant (base : RegisterTable) (s : RenameState) : Prop where
  grows : base <+: s.registerTable
  key : ∀ {o n : Nat}, s.renameTable[o]? = some n →
    o < base.length ∧ (base.desc o).type.canBeRenamed
  value : ∀ {o n : Nat}, s.renameTable[o]? = some n → base.length ≤ n ∧ n < s.registerTable.length ∧
    s.registerTable.desc n = base.desc o
  injective : ∀ {o o' n : Nat}, s.renameTable[o]? = some n → s.renameTable[o']? = some n → o = o'

/-- The operands of an operation are registers of the table. -/
structure OperationInTable (table : RegisterTable) (op : Operation) : Prop where
  src : ∀ {r}, .register r ∈ op.src → r < table.length
  dst : ∀ {r}, .register r ∈ op.dst → r < table.length
  noTable : op.reverseRenamingTable = ∅

theorem RenameInvariant.start {base table : RegisterTable} (hgrow : base <+: table) :
    RenameInvariant base ⟨table, ∅⟩ := by
  refine ⟨hgrow, ?_, ?_, ?_⟩
  · intro o n h; simp at h
  · intro o n h; simp at h
  · intro o o' n h; simp at h

/-- The renamed version of a register of the base has its description. -/
theorem RenameInvariant.desc_getD {base : RegisterTable} {s : RenameState}
    (h : RenameInvariant base s) {table' : RegisterTable} (hgrow : s.registerTable <+: table')
    {r : Nat} (hr : r < base.length) :
    table'.desc (s.renameTable.getD r r) = base.desc r := by
  rw [getD_eq]
  rcases hx : s.renameTable[r]? with _ | n
  · exact desc_of_grow (h.grows.trans hgrow) hr
  · obtain ⟨-, hlt, hdesc⟩ := h.value hx
    rw [Option.getD_some, desc_of_grow hgrow hlt, hdesc]

/-- A renamed register is one of the table. -/
theorem RenameInvariant.getD_lt {base : RegisterTable} {s : RenameState}
    (h : RenameInvariant base s) {r : Nat} (hr : r < base.length) :
    s.renameTable.getD r r < s.registerTable.length := by
  rw [getD_eq]
  rcases hx : s.renameTable[r]? with _ | n
  · exact hr.trans_le h.grows.length_le
  · exact (h.value hx).2.1

/-- Renaming is injective on the registers of the base. -/
theorem RenameInvariant.getD_injective {base : RegisterTable} {s : RenameState}
    (h : RenameInvariant base s) {r r' : Nat} (hr : r < base.length) (hr' : r' < base.length)
    (heq : s.renameTable.getD r r = s.renameTable.getD r' r') : r = r' := by
  rw [getD_eq, getD_eq] at heq
  rcases hx : s.renameTable[r]? with _ | n <;> rcases hx' : s.renameTable[r']? with _ | n' <;>
    rw [hx, hx'] at heq <;> simp only [Option.getD_none, Option.getD_some] at heq
  · exact heq
  · have := (h.value hx').1
    omega
  · have := (h.value hx).1
    omega
  · subst heq
    exact h.injective hx hx'

/-! ## Simulation -/

section Simulation

variable {W : Type} {base : RegisterTable}

/-- The local registers of the two threads agree through the renaming table. -/
def LocalsAgree (base : RegisterTable) (renameTable : RegisterIndexMap)
    (locals locals' : Nat → Nat) : Prop :=
  ∀ r < base.length, locals' (renameTable.getD r r) = locals r

/-- The two threads agree through the renaming table, and on the world. -/
structure Agrees (base : RegisterTable) (renameTable : RegisterIndexMap) (σ σ' : State W) :
    Prop where
  world : σ'.world = σ.world
  locals : LocalsAgree base renameTable σ.locals σ'.locals

variable {s : RenameState} {table' : RegisterTable} {m : Machine W} {σ σ' : State W}

theorem isLocal_of_desc {r r' : Nat} {base table' : RegisterTable}
    (hdesc : table'.desc r' = base.desc r) : table'.isLocal r' = base.isLocal r := by
  rw [RegisterTable.isLocal, RegisterTable.isLocal, hdesc]

theorem isLocal_of_canBeRenamed {base : RegisterTable} {r : Nat}
    (h : (base.desc r).type.canBeRenamed = true) : base.isLocal r = true := by
  rw [RegisterTable.isLocal]
  rcases ht : (base.desc r).type <;> rw [ht] at h <;> first | rfl | exact nomatch h

/-- A register that is not local to the thread keeps its name. -/
theorem RenameInvariant.getD_of_not_local (h : RenameInvariant base s) {r : Nat}
    (hl : base.isLocal r = false) : s.renameTable.getD r r = r := by
  rcases hx : s.renameTable[r]? with _ | n
  · exact getD_of_none hx r
  · rw [isLocal_of_canBeRenamed (h.key hx).2] at hl
    exact nomatch hl

theorem evalSource_renameSource (h : RenameInvariant base s) (hgrow : s.registerTable <+: table')
    (hA : Agrees base s.renameTable σ σ') {srcOp : SourceOperand}
    (hr : ∀ r, srcOp = .register r → r < base.length) :
    evalSource m table' σ' (renameSource s.renameTable srcOp) = evalSource m base σ srcOp := by
  rcases srcOp with l | r | f | str
  · rfl
  · have hlt := hr r rfl
    have hdesc := h.desc_getD hgrow hlt
    simp only [renameSource, evalSource, isLocal_of_desc hdesc, hdesc, hA.locals r hlt, hA.world]
    rcases hl : base.isLocal r with _ | _
    · simp only [h.getD_of_not_local hl, Bool.false_eq_true, if_false]
    · simp only [if_true]
  · simp only [renameSource, evalSource, hA.world]
  · rfl

end Simulation

/-! ## New registers -/

/-- The registers written are new ones between `lo` and `hi`, each written once, or of
    a kind that is not renamed. -/
structure FreshWrites (base : RegisterTable) (lo hi : Nat) (writes : List Nat) : Prop where
  mem : ∀ r ∈ writes, (lo ≤ r ∧ r < hi) ∨
    (r < base.length ∧ (base.desc r).type.canBeRenamed = false)
  increasing : (writes.filter fun r => decide (lo ≤ r)).Pairwise (· < ·)

theorem FreshWrites.append {base : RegisterTable} {lo mid hi : Nat} {l l' : List Nat}
    (hbase : base.length ≤ lo) (hlo : lo ≤ mid) (hhi : mid ≤ hi)
    (h : FreshWrites base lo mid l) (h' : FreshWrites base mid hi l') :
    FreshWrites base lo hi (l ++ l') := by
  refine ⟨fun r hr => ?_, ?_⟩
  · rcases List.mem_append.mp hr with hr | hr
    · exact (h.mem r hr).imp_left fun hb => ⟨hb.1, by omega⟩
    · exact (h'.mem r hr).imp_left fun hb => ⟨by omega, hb.2⟩
  · -- What the second part writes from `lo` on lies beyond the first part
    have hfilter : (l'.filter fun r => decide (lo ≤ r)) = l'.filter fun r => decide (mid ≤ r) := by
      refine List.filter_congr fun r hr => ?_
      rcases h'.mem r hr with hb | hb
      · simp only [decide_eq_decide]; omega
      · simp only [decide_eq_decide]; omega
    rw [List.filter_append, List.pairwise_append, hfilter]
    refine ⟨h.increasing, h'.increasing, fun a ha b hb => ?_⟩
    obtain ⟨ha, hla⟩ := List.mem_filter.mp ha
    obtain ⟨-, hlb⟩ := List.mem_filter.mp hb
    rw [decide_eq_true_eq] at hla hlb
    rcases h.mem a ha with hm | hm <;> omega

/-! ## Destinations -/

/-- What renaming a list of destinations achieves. -/
structure DestinationsSpec (base : RegisterTable) (s s' : RenameState)
    (dsts dsts' : List DestinationOperand) : Prop where
  invariant : RenameInvariant base s'
  grows : s.registerTable <+: s'.registerTable
  fresh : FreshWrites base s.registerTable.length s'.registerTable.length
    (dsts'.filterMap DestinationOperand.register?)
  /-- A machine sees the same destinations. -/
  targets : ∀ {table'}, s'.registerTable <+: table' →
    dsts'.map (target table') = dsts.map (target base)
  /-- Writing the renamed destinations keeps the threads in agreement. -/
  agrees : ∀ {table' locals locals'}, s'.registerTable <+: table' →
    LocalsAgree base s.renameTable locals locals' → ∀ results : List Nat,
    LocalsAgree base s'.renameTable (writeDestinations base dsts results locals)
      (writeDestinations table' dsts' results locals')

theorem DestinationsSpec.nil {base : RegisterTable} {s : RenameState}
    (h : RenameInvariant base s) : DestinationsSpec base s s [] [] where
  invariant := h
  grows := List.prefix_refl _
  fresh := ⟨nofun, List.Pairwise.nil⟩
  targets := fun _ => rfl
  agrees := fun _ hA _ => hA

/-- The invariant after a renameable register got a new name. -/
theorem RenameInvariant.insert {base : RegisterTable} {s : RenameState}
    (h : RenameInvariant base s) {r : Nat} (hr : r < base.length)
    (hren : (base.desc r).type.canBeRenamed = true) :
    RenameInvariant base ⟨s.registerTable ++ [s.registerTable.desc r],
      s.renameTable.insert r s.registerTable.length⟩ := by
  have hdesc : s.registerTable.desc r = base.desc r := desc_of_grow h.grows hr
  refine ⟨h.grows.trans (List.prefix_append _ _), ?_, ?_, ?_⟩
  · intro o n ho
    rw [getElem?_insert] at ho
    split_ifs at ho with hro
    · exact hro ▸ ⟨hr, hren⟩
    · exact h.key ho
  · intro o n ho
    rw [getElem?_insert] at ho
    rw [List.length_append, List.length_singleton]
    split_ifs at ho with hro
    · obtain rfl : s.registerTable.length = n := by simpa using ho
      refine ⟨h.grows.length_le, Nat.lt_succ_self _, ?_⟩
      rw [desc_append_self, hdesc, hro]
    · obtain ⟨hle, hlt, hd⟩ := h.value ho
      refine ⟨hle, by omega, ?_⟩
      rw [desc_of_grow (List.prefix_append _ _) hlt, hd]
  · intro o o' n ho ho'
    rw [getElem?_insert] at ho ho'
    split_ifs at ho ho' with hro hro' hro'
    · exact hro ▸ hro'
    · obtain rfl : s.registerTable.length = n := by simpa using ho
      exact absurd (h.value ho').2.1 (Nat.lt_irrefl _)
    · obtain rfl : s.registerTable.length = n := by simpa using ho'
      exact absurd (h.value ho).2.1 (Nat.lt_irrefl _)
    · exact h.injective ho ho'

/-- Writing a renamed register keeps the threads in agreement. -/
theorem LocalsAgree.insert {base : RegisterTable} {s : RenameState} (h : RenameInvariant base s)
    {locals locals' : Nat → Nat} (hA : LocalsAgree base s.renameTable locals locals') (r v : Nat) :
    LocalsAgree base (s.renameTable.insert r s.registerTable.length) (Function.update locals r v)
      (Function.update locals' s.registerTable.length v) := by
  intro q hq
  rw [getD_insert]
  by_cases hqr : r = q
  · subst hqr
    simp
  · have hlt := h.getD_lt hq
    rw [if_neg hqr, Function.update_of_ne (Ne.symm hqr), Function.update_of_ne (by omega)]
    exact hA q hq

/-- Writing a register that is not renamed keeps the threads in agreement. -/
theorem LocalsAgree.update {base : RegisterTable} {s : RenameState} (h : RenameInvariant base s)
    {locals locals' : Nat → Nat} (hA : LocalsAgree base s.renameTable locals locals') {r : Nat}
    (hr : r < base.length) (hnone : s.renameTable[r]? = none) (v : Nat) :
    LocalsAgree base s.renameTable (Function.update locals r v) (Function.update locals' r v) := by
  have hself : s.renameTable.getD r r = r := getD_of_none hnone r
  intro q hq
  by_cases hqr : q = r
  · subst hqr
    rw [hself, Function.update_self, Function.update_self]
  · rw [Function.update_of_ne hqr, Function.update_of_ne]
    · exact hA q hq
    · intro heq
      exact hqr (h.getD_injective hq hr (heq.trans hself.symm))

/-- A renameable destination. -/
theorem renameDestination_renameable {base : RegisterTable} {s : RenameState}
    (h : RenameInvariant base s) {r : Nat} (hr : r < base.length)
    (hren : (base.desc r).type.canBeRenamed = true) :
    ∃ s', renameDestination s (.register r) = .ok (.register s.registerTable.length, s') ∧
      DestinationsSpec base s s' [.register r] [.register s.registerTable.length] := by
  have hdesc : s.registerTable.desc r = base.desc r := desc_of_grow h.grows hr
  refine ⟨⟨s.registerTable ++ [s.registerTable.desc r],
    s.renameTable.insert r s.registerTable.length⟩, ?_, ?_⟩
  · simp only [renameDestination, allocateRegister, hdesc, hren, if_true]
  · have hnew : ∀ {table' : RegisterTable}, s.registerTable ++ [s.registerTable.desc r] <+: table' →
        table'.desc s.registerTable.length = base.desc r := by
      intro table' hgrow
      rw [desc_of_grow hgrow (by simp), desc_append_self, hdesc]
    refine ⟨h.insert hr hren, List.prefix_append _ _, ⟨?_, ?_⟩, ?_, ?_⟩
    · intro q hq
      obtain rfl : q = s.registerTable.length := by
        simpa [DestinationOperand.register?] using hq
      exact .inl ⟨Nat.le_refl _, by simp⟩
    · simp [DestinationOperand.register?]
    · intro table' hgrow
      simp only [List.map_cons, List.map_nil, target, isLocal_of_desc (hnew hgrow), hnew hgrow,
        isLocal_of_canBeRenamed hren, if_true]
    · intro table' locals locals' hgrow hA results
      simp only [writeDestinations, isLocal_of_desc (hnew hgrow), hnew hgrow,
        isLocal_of_canBeRenamed hren, if_true]
      exact hA.insert h r _

/-- A destination of another kind. -/
theorem renameDestination_not_renameable {base : RegisterTable} {s : RenameState}
    (h : RenameInvariant base s) {r : Nat} (hr : r < base.length)
    (hren : (base.desc r).type.canBeRenamed = false) :
    renameDestination s (.register r) = .ok (.register r, s) ∧
      DestinationsSpec base s s [.register r] [.register r] := by
  have hdesc : s.registerTable.desc r = base.desc r := desc_of_grow h.grows hr
  have hnone : s.renameTable[r]? = none := by
    rcases hx : s.renameTable[r]? with _ | n
    · rfl
    · rw [(h.key hx).2] at hren
      exact nomatch hren
  constructor
  · simp only [renameDestination, hdesc, hren, Bool.false_eq_true, if_false, contains_eq, hnone]
    rfl
  · have hsame : ∀ {table' : RegisterTable}, s.registerTable <+: table' →
        table'.desc r = base.desc r := fun hgrow => desc_of_grow (h.grows.trans hgrow) hr
    refine ⟨h, List.prefix_refl _, ⟨?_, ?_⟩, ?_, ?_⟩
    · intro q hq
      obtain rfl : q = r := by simpa [DestinationOperand.register?] using hq
      exact .inr ⟨hr, hren⟩
    · have := h.grows.length_le
      simp [DestinationOperand.register?, Nat.not_le.mpr (hr.trans_le this)]
    · intro table' hgrow
      simp only [List.map_cons, List.map_nil, target, isLocal_of_desc (hsame hgrow), hsame hgrow]
    · intro table' locals locals' hgrow hA results
      simp only [writeDestinations, isLocal_of_desc (hsame hgrow), hsame hgrow]
      split_ifs
      · exact hA.update h hr hnone _
      · exact hA

theorem renameDestination_spec {base : RegisterTable} {s : RenameState}
    (h : RenameInvariant base s) (dst : DestinationOperand)
    (hr : ∀ r, dst = .register r → r < base.length) :
    ∃ dst' s', renameDestination s dst = .ok (dst', s') ∧
      DestinationsSpec base s s' [dst] [dst'] := by
  rcases dst with r | f
  · rcases hren : (base.desc r).type.canBeRenamed with _ | _
    · obtain ⟨hok, hspec⟩ := renameDestination_not_renameable h (hr r rfl) hren
      exact ⟨_, s, hok, hspec⟩
    · obtain ⟨s', hok, hspec⟩ := renameDestination_renameable h (hr r rfl) hren
      exact ⟨_, s', hok, hspec⟩
  · refine ⟨.fifo f, s, rfl, h, List.prefix_refl _, ⟨?_, ?_⟩, fun _ => rfl, ?_⟩
    · intro r hmem
      exact nomatch hmem
    · exact List.Pairwise.nil
    · intro table' locals locals' _ hA results
      exact hA

theorem writeDestinations_append (table : RegisterTable) (dst : DestinationOperand)
    (dsts : List DestinationOperand) (results : List Nat) (locals : Nat → Nat) :
    writeDestinations table (dst :: dsts) results locals =
      writeDestinations table dsts results.tail (writeDestinations table [dst] results locals) := by
  rcases dst with r | f <;> rfl

theorem DestinationsSpec.cons {base : RegisterTable} {s s1 s2 : RenameState}
    {dst dst' : DestinationOperand} {dsts dsts' : List DestinationOperand}
    (hbase : base <+: s.registerTable) (h : DestinationsSpec base s s1 [dst] [dst'])
    (h' : DestinationsSpec base s1 s2 dsts dsts') :
    DestinationsSpec base s s2 (dst :: dsts) (dst' :: dsts') := by
  refine ⟨h'.invariant, h.grows.trans h'.grows, ?_, ?_, ?_⟩
  · have happ := h.fresh.append hbase.length_le h.grows.length_le h'.grows.length_le h'.fresh
    rwa [← List.filterMap_append, List.singleton_append] at happ
  · intro table' hgrow
    have h1 := h.targets (h'.grows.trans hgrow)
    have h2 := h'.targets hgrow
    simp only [List.map_cons, List.map_nil, List.cons.injEq, and_true] at h1
    rw [List.map_cons, List.map_cons, h1, h2]
  · intro table' locals locals' hgrow hA results
    rw [writeDestinations_append base, writeDestinations_append table']
    exact h'.agrees hgrow (h.agrees (h'.grows.trans hgrow) hA results) results.tail

/-- The loop over the destinations of an operation. -/
theorem renameDestinations_spec {base : RegisterTable} (dsts : List DestinationOperand) :
    ∀ {s : RenameState}, RenameInvariant base s →
      (∀ {r}, .register r ∈ dsts → r < base.length) →
      ∃ dsts' s', renameDestinations s dsts = .ok (dsts', s') ∧
        DestinationsSpec base s s' dsts dsts' := by
  induction dsts with
  | nil => intro s h _; exact ⟨[], s, rfl, .nil h⟩
  | cons dst dsts ih =>
      intro s h hr
      obtain ⟨dst', s1, hok1, hs1⟩ := renameDestination_spec h dst
        fun r hdst => hr (hdst ▸ List.mem_cons_self)
      obtain ⟨dsts', s2, hok2, hs2⟩ := ih hs1.invariant fun hmem => hr (List.mem_cons_of_mem _ hmem)
      refine ⟨dst' :: dsts', s2, ?_, hs1.cons h.grows hs2⟩
      simp only [renameDestinations, hok1, ok_bind, hok2, pure_eq_ok]

/-! ## Operations -/

/-- The two tables of an operation are inverse injections. -/
def InverseTables (op : Operation) : Prop :=
  ∀ o n : Nat, op.renamingTable[o]? = some n ↔ op.reverseRenamingTable[n]? = some o

/-- Inserting the pairs of an injective map backwards gives its inverse. -/
theorem foldlM_safeInsert (l : List (Nat × Nat)) : ∀ reverse : RegisterIndexMap,
    l.Pairwise (fun p q => p.2 ≠ q.2) → (∀ p ∈ l, reverse[p.2]? = none) →
    ∃ reverse', l.foldlM (fun reverse p => safeInsert reverse p.2 p.1) reverse = .ok reverse' ∧
      ∀ o n : Nat, reverse'[n]? = some o ↔ reverse[n]? = some o ∨ (o, n) ∈ l := by
  induction l with
  | nil => intro reverse _ _; exact ⟨reverse, rfl, by simp⟩
  | cons p rest ih =>
      intro reverse hpair hnone
      obtain ⟨hp, hrest⟩ := List.pairwise_cons.mp hpair
      have hp0 := hnone p List.mem_cons_self
      have hinsert : safeInsert reverse p.2 p.1 = .ok (reverse.insert p.2 p.1) := by
        simp [safeInsert, contains_eq, hp0]
      have hnone' : ∀ q ∈ rest, (reverse.insert p.2 p.1)[q.2]? = none := by
        intro q hq
        rw [getElem?_insert, if_neg (hp q hq)]
        exact hnone q (List.mem_cons_of_mem _ hq)
      obtain ⟨reverse', hok, hiff⟩ := ih _ hrest hnone'
      refine ⟨reverse', ?_, fun o n => ?_⟩
      · rw [List.foldlM_cons, hinsert, ok_bind]
        exact hok
      · rw [hiff, getElem?_insert, List.mem_cons, Prod.ext_iff]
        by_cases hpn : p.2 = n
        · subst hpn
          simp only [if_true, hp0, Option.some.injEq, reduceCtorEq, false_or, and_true]
          exact or_congr_left eq_comm
        · simp only [if_neg hpn, Ne.symm hpn, and_false, false_or]

/-- The snapshot on an `Enqueue`; other operations are left as they are. -/
theorem recordTables_spec {base : RegisterTable} {s : RenameState} (h : RenameInvariant base s)
    {op : Operation} (hop : op.reverseRenamingTable = ∅) :
    ∃ op', recordTables s.renameTable op = .ok op' ∧ op'.opcode = op.opcode ∧
      op'.signExtendSourceMask = op.signExtendSourceMask ∧ op'.tag = op.tag ∧
      op'.src = op.src ∧ op'.dst = op.dst ∧ op'.successorBlock = op.successorBlock ∧
      (op'.isEnqueue = true → op'.renamingTable = s.renameTable ∧ InverseTables op') := by
  unfold recordTables
  rcases he : op.isEnqueue with _ | _
  · refine ⟨op, by simp, rfl, rfl, rfl, rfl, rfl, rfl, ?_⟩
    rw [he]
    exact nofun
  · have hpair : s.renameTable.toList.Pairwise (fun p q => p.2 ≠ q.2) := by
      have hkeys := Std.ExtTreeMap.distinct_keys_toList (t := s.renameTable)
      refine hkeys.imp_of_mem fun {p q} hp hq hne heq => ?_
      have hp' := mem_toList_iff.mp hp
      rw [heq] at hp'
      exact hne (Std.LawfulEqCmp.compare_eq_iff_eq.mpr (h.injective hp' (mem_toList_iff.mp hq)))
    obtain ⟨reverse, hok, hiff⟩ := foldlM_safeInsert s.renameTable.toList ∅ hpair
      (fun p _ => Std.ExtTreeMap.getElem?_empty)
    refine ⟨{ op with renamingTable := s.renameTable, reverseRenamingTable := reverse }, ?_,
      rfl, rfl, rfl, rfl, rfl, rfl, fun _ => ⟨rfl, fun o n => ?_⟩⟩
    · simp only [if_true, hop, hok, ok_bind, pure_eq_ok]
      rfl
    · show s.renameTable[o]? = some n ↔ reverse[n]? = some o
      rw [hiff, ← mem_toList_iff, Std.ExtTreeMap.getElem?_empty]
      simp

/-- What renaming a list of operations achieves. -/
structure OperationsSpec (base : RegisterTable) (s s' : RenameState) (ops ops' : List Operation) :
    Prop where
  invariant : RenameInvariant base s'
  grows : s.registerTable <+: s'.registerTable
  fresh : FreshWrites base s.registerTable.length s'.registerTable.length
    (ops'.flatMap Operation.writes)
  tables : ∀ op ∈ ops', op.isEnqueue = true → InverseTables op
  /-- Every operation reads the same values, and the threads agree afterwards. -/
  simulates : ∀ {W : Type} (m : Machine W) {table'} {σ σ' : State W},
    s'.registerTable <+: table' → Agrees base s.renameTable σ σ' →
    traceOperations m table' σ' ops' = traceOperations m base σ ops ∧
    Agrees base s'.renameTable (execOperations m base σ ops) (execOperations m table' σ' ops')
  /-- At an `Enqueue` the threads agree through the table it carries. -/
  handover : ∀ {W : Type} (m : Machine W) {table'} {σ σ' : State W},
    s'.registerTable <+: table' → Agrees base s.renameTable σ σ' →
    ∀ {i op}, ops'[i]? = some op → op.isEnqueue = true →
      Agrees base op.renamingTable (execOperations m base σ (ops.take i))
        (execOperations m table' σ' (ops'.take i))

theorem OperationsSpec.nil {base : RegisterTable} {s : RenameState} (h : RenameInvariant base s) :
    OperationsSpec base s s [] [] where
  invariant := h
  grows := List.prefix_refl _
  fresh := ⟨nofun, List.Pairwise.nil⟩
  tables := nofun
  simulates := fun _ _ _ _ _ hA => ⟨rfl, hA⟩
  handover := fun _ _ _ _ _ _ _ _ h => nomatch h

theorem traceOperations_append {W : Type} (m : Machine W) (table : RegisterTable) (σ : State W)
    (ops ops' : List Operation) :
    traceOperations m table σ (ops ++ ops') =
      traceOperations m table σ ops ++
        traceOperations m table (execOperations m table σ ops) ops' := by
  induction ops generalizing σ with
  | nil => rfl
  | cons op ops ih =>
      rw [List.cons_append, traceOperations, traceOperations, ih, List.cons_append]
      rfl

theorem OperationsSpec.append {base : RegisterTable} {s s1 s2 : RenameState}
    {l l' k k' : List Operation} (h : OperationsSpec base s s1 l l')
    (hbase : base <+: s.registerTable) (h' : OperationsSpec base s1 s2 k k')
    (hlen : l'.length = l.length) : OperationsSpec base s s2 (l ++ k) (l' ++ k') := by
  refine ⟨h'.invariant, h.grows.trans h'.grows, ?_, ?_, ?_, ?_⟩
  · rw [List.flatMap_append]
    exact h.fresh.append hbase.length_le h.grows.length_le h'.grows.length_le h'.fresh
  · intro op hop
    rcases List.mem_append.mp hop with hop | hop
    · exact h.tables op hop
    · exact h'.tables op hop
  · intro W m table' σ σ' hgrow hA
    obtain ⟨ht, hA1⟩ := h.simulates m (h'.grows.trans hgrow) hA
    obtain ⟨ht', hA2⟩ := h'.simulates m hgrow hA1
    rw [traceOperations_append, traceOperations_append, ht, ht']
    refine ⟨rfl, ?_⟩
    simpa only [execOperations, List.foldl_append] using hA2
  · intro W m table' σ σ' hgrow hA i op hi he
    obtain ⟨-, hA1⟩ := h.simulates m (h'.grows.trans hgrow) hA
    rcases Nat.lt_or_ge i l'.length with hlt | hge
    · rw [List.getElem?_append_left hlt] at hi
      rw [List.take_append_of_le_length (by omega), List.take_append_of_le_length (by omega)]
      exact h.handover m (h'.grows.trans hgrow) hA hi he
    · rw [List.getElem?_append_right hge] at hi
      have hA2 := h'.handover m hgrow hA1 hi he
      rw [List.take_append, List.take_append, List.take_of_length_le (show l.length ≤ i by omega),
        List.take_of_length_le hge, ← hlen]
      simpa only [execOperations, List.foldl_append] using hA2

/-- The callback of the walk. -/
theorem renameOperation_spec {base : RegisterTable} {s : RenameState} (h : RenameInvariant base s)
    {op : Operation} (hop : OperationInTable base op) :
    ∃ op' s', renameOperation s op = .ok (op', s') ∧
      OperationsSpec base s s' [op] [op'] := by
  obtain ⟨op1, hrec, hopcode, hmask, htag, hsrc, hdst, -, htables⟩ :=
    recordTables_spec h hop.noTable
  obtain ⟨dsts', s', hdsts, hs⟩ := renameDestinations_spec op.dst h hop.dst
  obtain ⟨op2, hop2⟩ : ∃ op2, op2 =
      { op1 with src := op.src.map (renameSource s.renameTable), dst := dsts' } := ⟨_, rfl⟩
  refine ⟨op2, s', ?_, ?_⟩
  · simp only [renameOperation, hrec, ok_bind, hdst, hdsts, pure_eq_ok, hsrc, hop2]
  · have hstep : ∀ {W : Type} (m : Machine W) {table' : RegisterTable} {σ σ' : State W},
        s'.registerTable <+: table' → Agrees base s.renameTable σ σ' →
        evalSources m table' σ' op2 = evalSources m base σ op := by
      intro W m table' σ σ' hgrow hA
      rw [evalSources, evalSources, hop2, List.map_map]
      refine List.map_congr_left fun srcOp hmem => ?_
      refine evalSource_renameSource h (hs.grows.trans hgrow) hA fun r hr => ?_
      exact hop.src (hr ▸ hmem)
    refine ⟨hs.invariant, hs.grows, ?_, ?_, ?_, ?_⟩
    · rw [List.flatMap_singleton, hop2]
      exact hs.fresh
    · intro op' hop' he
      rw [List.mem_singleton.mp hop', hop2] at he ⊢
      exact (htables he).2
    · intro W m table' σ σ' hgrow hA
      have hsources := hstep m hgrow hA
      refine ⟨by rw [traceOperations, traceOperations, hsources]; rfl, ?_⟩
      have hinfo : op2.info table' = op.info base := by
        simp only [Operation.info, hop2, hopcode, hmask, htag, hs.targets hgrow]
      have hdst2 : op2.dst = dsts' := by rw [hop2]
      simp only [execOperations, List.foldl_cons, List.foldl_nil, execOperation, hsources, hinfo,
        hA.world, hdst2]
      exact ⟨rfl, hs.agrees hgrow hA.locals _⟩
    · intro W m table' σ σ' hgrow hA i op' hi he
      rcases i with _ | i
      · rw [← Option.some.inj hi, hop2] at he ⊢
        have htable : op1.renamingTable = s.renameTable := (htables he).1
        show Agrees base op1.renamingTable σ σ'
        rwa [htable]
      · exact nomatch hi

theorem renameOperations_spec {base : RegisterTable} (ops : List Operation) :
    ∀ {s : RenameState}, RenameInvariant base s → (∀ op ∈ ops, OperationInTable base op) →
      ∃ ops' s', renameOperations s ops = .ok (ops', s') ∧ ops'.length = ops.length ∧
        OperationsSpec base s s' ops ops' := by
  induction ops with
  | nil => intro s h _; exact ⟨[], s, rfl, rfl, .nil h⟩
  | cons op ops ih =>
      intro s h hops
      obtain ⟨op', s1, hok1, hs1⟩ := renameOperation_spec h (hops op List.mem_cons_self)
      obtain ⟨ops', s2, hok2, hlen, hs2⟩ :=
        ih hs1.invariant fun o ho => hops o (List.mem_cons_of_mem _ ho)
      refine ⟨op' :: ops', s2, ?_, by simp [hlen], hs1.append h.grows hs2 rfl⟩
      simp only [renameOperations, hok1, ok_bind, hok2, pure_eq_ok]

theorem renameStages_spec {base : RegisterTable} (stages : List Stage) :
    ∀ {s : RenameState}, RenameInvariant base s →
      (∀ op ∈ stages.flatMap Stage.operations, OperationInTable base op) →
      ∃ stages' s', renameStages s stages = .ok (stages', s') ∧
        OperationsSpec base s s' (stages.flatMap Stage.operations)
          (stages'.flatMap Stage.operations) := by
  induction stages with
  | nil => intro s h _; exact ⟨[], s, rfl, .nil h⟩
  | cons stage stages ih =>
      intro s h hops
      rw [List.flatMap_cons] at hops
      obtain ⟨ops', s1, hok1, hlen1, hs1⟩ := renameOperations_spec stage.operations h
        fun o ho => hops o (List.mem_append_left _ ho)
      obtain ⟨stages', s2, hok2, hs2⟩ := ih hs1.invariant
        fun o ho => hops o (List.mem_append_right _ ho)
      refine ⟨{ stage with operations := ops' } :: stages', s2, ?_,
        hs1.append h.grows hs2 hlen1⟩
      simp only [renameStages, hok1, ok_bind, hok2, pure_eq_ok]

/-! ## Blocks and programs -/

/-- The operations of a block after renaming, and the table it leaves. -/
theorem rename_spec {base table : RegisterTable} (hgrow : base <+: table)
    {basicBlock : BasicBlock}
    (hops : ∀ op ∈ basicBlock.allOperations, OperationInTable base op) :
    ∃ basicBlock' s', rename table basicBlock = .ok (basicBlock', s'.registerTable) ∧
      OperationsSpec base ⟨table, ∅⟩ s' basicBlock.allOperations basicBlock'.allOperations := by
  have h := RenameInvariant.start hgrow
  unfold BasicBlock.allOperations at hops
  obtain ⟨start', s1, hok1, hlen1, hs1⟩ := renameOperations_spec
    basicBlock.startConditionOperations h
    fun o ho => hops o (List.mem_append_left _ (List.mem_append_left _ ho))
  obtain ⟨operations', s2, hok2, hlen2, hs2⟩ := renameOperations_spec
    basicBlock.operations hs1.invariant
    fun o ho => hops o (List.mem_append_left _ (List.mem_append_right _ ho))
  obtain ⟨stages', s3, hok3, hs3⟩ := renameStages_spec basicBlock.stages hs2.invariant
    fun o ho => hops o (List.mem_append_right _ ho)
  refine ⟨⟨start', operations', stages'⟩, s3, ?_, ?_⟩
  · simp only [rename, hok1, hok2, hok3, ok_bind, pure_eq_ok]
  · exact (hs1.append h.grows hs2 hlen1).append h.grows hs3 (by simp [hlen1, hlen2])

/-- A renamed block does what the original one does: from states that agree on the
    original registers, every operation reads the same values, and at every `Enqueue`
    each original register has the value of the register its table maps it to (or of
    itself). -/
structure SameMeaning (table table' : RegisterTable) (basicBlock basicBlock' : BasicBlock) :
    Prop where
  sources : ∀ {W : Type} (m : Machine W) {σ σ' : State W}, σ'.world = σ.world →
    (∀ r < table.length, σ'.locals r = σ.locals r) →
    traceOperations m table' σ' basicBlock'.allOperations =
      traceOperations m table σ basicBlock.allOperations
  handover : ∀ {W : Type} (m : Machine W) {σ σ' : State W}, σ'.world = σ.world →
    (∀ r < table.length, σ'.locals r = σ.locals r) →
    ∀ {i op}, basicBlock'.allOperations[i]? = some op → op.isEnqueue = true →
      (execOperations m table' σ' (basicBlock'.allOperations.take i)).world =
        (execOperations m table σ (basicBlock.allOperations.take i)).world ∧
      ∀ r < table.length,
        (execOperations m table' σ' (basicBlock'.allOperations.take i)).locals
            (op.mapOriginalToRenamedRegisterIndex r) =
          (execOperations m table σ (basicBlock.allOperations.take i)).locals r

theorem OperationsSpec.sameMeaning {base table table' : RegisterTable} {s' : RenameState}
    {basicBlock basicBlock' : BasicBlock} (hgrow : s'.registerTable <+: table')
    (h : OperationsSpec base ⟨table, ∅⟩ s' basicBlock.allOperations basicBlock'.allOperations) :
    SameMeaning base table' basicBlock basicBlock' := by
  have hstart : ∀ {W : Type} {σ σ' : State W}, σ'.world = σ.world →
      (∀ r < base.length, σ'.locals r = σ.locals r) → Agrees base ∅ σ σ' := by
    intro W σ σ' hworld hlocals
    refine ⟨hworld, fun r hr => ?_⟩
    rw [getD_of_none Std.ExtTreeMap.getElem?_empty]
    exact hlocals r hr
  refine ⟨fun m _ _ hworld hlocals => ?_, fun m _ _ hworld hlocals _ _ hi he => ?_⟩
  · exact (h.simulates m hgrow (hstart hworld hlocals)).1
  · have hA := h.handover m hgrow (hstart hworld hlocals) hi he
    exact ⟨hA.world, hA.locals⟩

theorem renameBlocks_spec {base : RegisterTable} (basicBlocks : List BasicBlock)
    (hops : ∀ b ∈ basicBlocks, ∀ op ∈ b.allOperations, OperationInTable base op) :
    ∀ {table : RegisterTable}, base <+: table →
      ∃ basicBlocks' table', renameBlocks table basicBlocks = .ok (basicBlocks', table') ∧
        table <+: table' ∧
        FreshWrites base table.length table'.length
          ((basicBlocks'.flatMap BasicBlock.allOperations).flatMap Operation.writes) ∧
        (∀ op ∈ basicBlocks'.flatMap BasicBlock.allOperations, op.isEnqueue = true →
          InverseTables op) ∧
        ∀ {final}, table' <+: final →
          List.Forall₂ (SameMeaning base final) basicBlocks basicBlocks' := by
  induction basicBlocks with
  | nil =>
      intro table _
      exact ⟨[], table, rfl, List.prefix_refl _, ⟨nofun, List.Pairwise.nil⟩, nofun, fun _ => .nil⟩
  | cons b bs ih =>
      intro table hgrow
      obtain ⟨b', s', hok, hs⟩ := rename_spec hgrow (hops b List.mem_cons_self)
      obtain ⟨bs', table', hok', hgrow', hfresh, htables, hsame⟩ :=
        ih (fun c hc => hops c (List.mem_cons_of_mem _ hc)) (hgrow.trans hs.grows)
      refine ⟨b' :: bs', table', ?_, hs.grows.trans hgrow', ?_, ?_, ?_⟩
      · simp only [renameBlocks, hok, ok_bind, hok', pure_eq_ok]
      · rw [List.flatMap_cons, List.flatMap_append]
        exact hs.fresh.append hgrow.length_le hs.grows.length_le hgrow'.length_le hfresh
      · intro op hop
        rw [List.flatMap_cons] at hop
        rcases List.mem_append.mp hop with hop | hop
        · exact hs.tables op hop
        · exact htables op hop
      · intro final hfinal
        exact .cons (hs.sameMeaning (hgrow'.trans hfinal)) (hsame hfinal)

/-- A renameable register is written at most once. -/
theorem FreshWrites.count_le_one {base table' : RegisterTable} {lo hi : Nat} {writes : List Nat}
    (h : FreshWrites base lo hi writes) (hgrow : base <+: table') {r : Nat}
    (hren : (table'.desc r).type.canBeRenamed = true) : writes.count r ≤ 1 := by
  by_cases hlo : lo ≤ r
  · have hnodup : (writes.filter fun r => decide (lo ≤ r)).Nodup :=
      h.increasing.imp fun hlt => Nat.ne_of_lt hlt
    rw [← List.count_filter (p := fun r => decide (lo ≤ r)) (decide_eq_true hlo)]
    exact List.nodup_iff_count.mp hnodup r
  · have hnot : r ∉ writes := by
      intro hmem
      rcases h.mem r hmem with hb | ⟨hlt, hno⟩
      · exact hlo hb.1
      · rw [desc_of_grow hgrow hlt, hno] at hren
        exact nomatch hren
    rw [List.count_eq_zero_of_not_mem hnot]
    exact Nat.zero_le 1

/-- `Rename` on every block of a program succeeds; afterwards every renameable register
    is written at most once in the whole program, the tables on every `Enqueue` are
    inverse injections, and every block means what it meant. -/
theorem renameBlocks_correct (table : RegisterTable) (basicBlocks : List BasicBlock)
    (hops : ∀ b ∈ basicBlocks, ∀ op ∈ b.allOperations, OperationInTable table op) :
    ∃ basicBlocks' table', renameBlocks table basicBlocks = .ok (basicBlocks', table') ∧
      (∀ r, (table'.desc r).type.canBeRenamed = true →
        ((basicBlocks'.flatMap BasicBlock.allOperations).flatMap Operation.writes).count r ≤ 1) ∧
      (∀ op ∈ basicBlocks'.flatMap BasicBlock.allOperations, op.isEnqueue = true →
        InverseTables op) ∧
      List.Forall₂ (SameMeaning table table') basicBlocks basicBlocks' := by
  obtain ⟨bs', table', hok, hgrow, hfresh, htables, hsame⟩ :=
    renameBlocks_spec basicBlocks hops (List.prefix_refl table)
  exact ⟨bs', table', hok, fun r hr => hfresh.count_le_one hgrow hr, htables,
    hsame (List.prefix_refl _)⟩

/-- The theorem for a block that writes register 0 twice around a read, and passes it on. -/
theorem renameBlocks_correct_two_writes :
    ∃ basicBlocks' table', renameBlocks [⟨8, .local, false, false, none⟩]
        [⟨[], [{ opcode := .clear, dst := [.register 0] },
            { opcode := .unaryOp .invert, src := [.register 0], dst := [.register 0] }],
          [⟨0, [{ opcode := .enqueue false, successorBlock := some 0 }]⟩]⟩]
        = .ok (basicBlocks', table') ∧
      (∀ r, (table'.desc r).type.canBeRenamed = true →
        ((basicBlocks'.flatMap BasicBlock.allOperations).flatMap Operation.writes).count r ≤ 1) ∧
      (∀ op ∈ basicBlocks'.flatMap BasicBlock.allOperations, op.isEnqueue = true →
        InverseTables op) ∧
      List.Forall₂ (SameMeaning [⟨8, .local, false, false, none⟩] table')
        [⟨[], [{ opcode := .clear, dst := [.register 0] },
            { opcode := .unaryOp .invert, src := [.register 0], dst := [.register 0] }],
          [⟨0, [{ opcode := .enqueue false, successorBlock := some 0 }]⟩]⟩] basicBlocks' := by
  refine renameBlocks_correct _ _ fun b hb op hop => ?_
  rw [List.mem_singleton.mp hb] at hop
  simp only [BasicBlock.allOperations, List.nil_append, List.flatMap_cons, List.flatMap_nil,
    List.append_nil, List.cons_append, List.mem_cons, List.not_mem_nil, or_false] at hop
  rcases hop with rfl | rfl | rfl
  · exact ⟨by simp, by simp, rfl⟩
  · exact ⟨by simp, by simp, rfl⟩
  · exact ⟨by simp, by simp, rfl⟩

end Kanagawa.Lower
