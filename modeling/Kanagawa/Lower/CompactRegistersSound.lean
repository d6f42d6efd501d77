/-
  Kanagawa.Lower.CompactRegistersSound

  The new numbers keep the order of the old ones, so that all references are
  renumbered and no two entries of a renaming table merge; once compact, the program
  stays as it is.
-/
import Kanagawa.Lib.References
import Kanagawa.Lower.CompactRegisters
import Kanagawa.Lower.RenameSound

namespace Kanagawa.Lower.Compact

open IR (safeInsert safeLookup safeLookup_of_some RegisterIndexMap)
open Lib.Except Lib.NatMap Lib.References

/-! ## Register index maps -/

theorem foldlM_lookups {a b : Nat × Nat → Except Failure Nat} (a' b' : Nat × Nat → Nat)
    (l : List (Nat × Nat)) : ∀ newMap : RegisterIndexMap,
    (∀ p ∈ l, a p = .ok (a' p) ∧ b p = .ok (b' p)) →
    l.foldlM (fun newMap p => do
        let key ← a p
        let value ← b p
        safeInsert newMap key value) newMap
      = (l.map fun p => (a' p, b' p)).foldlM (fun newMap p => safeInsert newMap p.1 p.2) newMap := by
  induction l with
  | nil => exact fun _ _ => rfl
  | cons p l ih =>
      intro newMap h
      obtain ⟨ha, hb⟩ := h p List.mem_cons_self
      rw [List.map_cons, List.foldlM_cons, List.foldlM_cons, ha, ok_bind, hb, ok_bind]
      cases safeInsert newMap (a' p) (b' p) with
      | error e => rfl
      | ok newMap' => exact ih newMap' fun q hq => h q (List.mem_cons_of_mem _ hq)

/-- The entries of a map stand in the order of the keys. -/
theorem toList_sorted (t : RegisterIndexMap) : t.toList.Pairwise (fun p q => p.1 < q.1) :=
  Std.ExtTreeMap.ordered_keys_toList.imp fun h => Nat.compare_eq_lt.mp h

/-- Entries with growing keys are inserted, and are the entries of the new map. -/
theorem foldlM_insert {l : List (Nat × Nat)} (hl : l.Pairwise (fun p q => p.1 < q.1)) :
    ∃ newMap : RegisterIndexMap,
      l.foldlM (fun newMap p => safeInsert newMap p.1 p.2) ∅ = .ok newMap ∧ newMap.toList = l := by
  have hswap : (l.map Prod.swap).Pairwise (fun p q => p.2 ≠ q.2) :=
    List.pairwise_map.mpr (hl.imp fun h => h.ne)
  obtain ⟨newMap, hok, hiff⟩ := foldlM_safeInsert (l.map Prod.swap) ∅ hswap (by simp)
  rw [List.foldlM_map] at hok
  refine ⟨newMap, hok, ?_⟩
  have hmem : ∀ p : Nat × Nat, p ∈ newMap.toList ↔ p ∈ l := by
    rintro ⟨k, v⟩
    rw [mem_toList_iff, hiff]
    simp
  have hsorted := toList_sorted newMap
  have hnodup : ∀ {l : List (Nat × Nat)}, l.Pairwise (fun p q => p.1 < q.1) → l.Nodup :=
    fun h => h.imp fun hlt heq => (heq ▸ hlt).ne rfl
  refine List.Perm.eq_of_pairwise (fun p q _ _ hlt hgt => absurd hlt hgt.asymm) hsorted hl ?_
  exact (List.perm_ext_iff_of_nodup (hnodup hsorted) (hnodup hl)).mpr hmem

theorem mapReferences_left {t : RegisterIndexMap} {p : Nat × Nat} (h : p ∈ t.toList) :
    p.1 ∈ mapReferences t := List.mem_flatMap.mpr ⟨p, h, by simp⟩

theorem mapReferences_right {t : RegisterIndexMap} {p : Nat × Nat} (h : p ∈ t.toList) :
    p.2 ∈ mapReferences t := List.mem_flatMap.mpr ⟨p, h, by simp⟩

/-- Inserting the entries of a map gives the map. -/
theorem foldlM_toList (t : RegisterIndexMap) :
    t.toList.foldlM (fun newMap p => safeInsert newMap p.1 p.2) ∅ = .ok t := by
  obtain ⟨newMap, hok, hlist⟩ := foldlM_insert (toList_sorted t)
  rw [hok, Std.ExtTreeMap.toList_inj.mp hlist]

/-- No two entries of a table merge. -/
theorem map_renumbers : Renumbers mapReferences updateMap where
  fixed {f t} hf := by
    rw [updateMap, foldlM_lookups Prod.fst Prod.snd _ _ fun p hp =>
      ⟨hf _ (mapReferences_left hp), hf _ (mapReferences_right hp)⟩]
    exact (congrArg (List.foldlM _ _) (List.map_id _)).trans (foldlM_toList t)
  renumber {g t} hg := by
    have hsorted : (t.toList.map fun p => (g p.1, g p.2)).Pairwise (fun p q => p.1 < q.1) := by
      refine List.pairwise_map.mpr ((toList_sorted t).imp_of_mem fun hp hq hlt => ?_)
      exact hg (mapReferences_left hp) (mapReferences_left hq) hlt
    obtain ⟨newMap, hok, hlist⟩ := foldlM_insert hsorted
    refine ⟨newMap, ?_, fun f hf => ?_, fun f hf => ?_⟩
    · rw [mapReferences, hlist, List.flatMap_map, mapReferences, List.map_flatMap]
      rfl
    · rw [updateMap, foldlM_lookups (fun p => g p.1) (fun p => g p.2) _ _ fun p hp =>
        ⟨hf _ (mapReferences_left hp), hf _ (mapReferences_right hp)⟩]
      exact hok
    · rw [updateMap, hlist, List.foldlM_map,
        foldlM_lookups Prod.fst Prod.snd _ _ fun p hp =>
          ⟨hf _ (mapReferences_left hp), hf _ (mapReferences_right hp)⟩]
      exact (congrArg (List.foldlM _ _) (List.map_id _)).trans (foldlM_toList t)

/-! ## The structures -/

theorem sourceOperand_renumbers : Renumbers SourceOperand.references SourceOperand.update where
  fixed {f x} hf := by
    cases x with
    | register r => exact congrArg (SourceOperand.register <$> ·) (hf r List.mem_cons_self)
    | fifo r o w => exact congrArg ((SourceOperand.fifo · o w) <$> ·) (hf r List.mem_cons_self)
    | _ => rfl
  renumber {g x} _ := by
    cases x with
    | register r =>
        exact ⟨.register (g r), rfl,
          fun f hf => congrArg (SourceOperand.register <$> ·) (hf r List.mem_cons_self),
          fun f hf => congrArg (SourceOperand.register <$> ·) (hf r List.mem_cons_self)⟩
    | fifo r o w =>
        exact ⟨.fifo (g r) o w, rfl,
          fun f hf => congrArg ((SourceOperand.fifo · o w) <$> ·) (hf r List.mem_cons_self),
          fun f hf => congrArg ((SourceOperand.fifo · o w) <$> ·) (hf r List.mem_cons_self)⟩
    | literal v w => exact ⟨_, rfl, fun _ _ => rfl, fun _ _ => rfl⟩
    | stringLiteral s => exact ⟨_, rfl, fun _ _ => rfl, fun _ _ => rfl⟩

/-- A register, or a part of a FIFO. -/
def DestinationOperand.equiv : DestinationOperand ≃ Nat ⊕ ((Nat × Nat) × Nat) where
  toFun
    | .register r => .inl r
    | .fifo r o w => .inr ((o, w), r)
  invFun
    | .inl r => .register r
    | .inr ((o, w), r) => .fifo r o w
  left_inv x := by cases x <;> rfl
  right_inv x := by rcases x with _ | ⟨⟨_, _⟩, _⟩ <;> rfl

theorem destinationOperand_renumbers :
    Renumbers DestinationOperand.references DestinationOperand.update := by
  refine .of_equiv DestinationOperand.equiv
    (.sum .register (.pair (α := Nat × Nat) .constant .register)) (fun x => ?_) (fun f x => ?_)
  · cases x <;> rfl
  · cases x with
    | register r =>
        show _ = _ <$> Sum.inl <$> f r
        rw [Functor.map_map]
        rfl
    | fifo r o w =>
        show _ <$> f r = _ <$> (Sum.inr <$> (f r >>= fun b => pure ((o, w), b)))
        cases f r <;> rfl

def Enqueue.equiv :
    Enqueue ≃ (Bool × Nat) × (EnqueueType × Nat) × RegisterIndexMap × RegisterIndexMap where
  toFun e := ((e.hasSuccessorBlock, e.successorFifo), (e.type, e.reorderSlotRegister),
    e.renamingTable, e.reverseRenamingTable)
  invFun t := ⟨t.1.1, t.1.2, t.2.1.1, t.2.1.2, t.2.2.1, t.2.2.2⟩
  left_inv _ := rfl
  right_inv _ := rfl

theorem enqueue_renumbers : Renumbers Enqueue.references Enqueue.update := by
  refine .of_equiv Enqueue.equiv (.pair (.conditional (fun c => !c) .register)
    (.pair (.conditional (fun t => t == .reorderBuffer) .register)
      (.pair map_renumbers map_renumbers))) (fun _ => rfl) (fun f e => ?_)
  cases hc : !e.hasSuccessorBlock <;> cases ht : e.type == .reorderBuffer <;>
    simp [Enqueue.update, Enqueue.equiv, hc, ht]

/-- The registers of a list. -/
theorem registers_renumber :
    Renumbers (fun rs : List Nat => rs) (fun (f : Nat → Except Failure Nat) rs => rs.mapM f) :=
  .of_equiv (Equiv.refl _) (.list .register) (fun rs => (List.flatMap_singleton' rs).symm)
    (fun _ _ => (id_map _).symm)

/-- A register that may be missing. -/
theorem optional_renumbers :
    Renumbers (fun r : Option Nat => r.toList)
      (fun (f : Nat → Except Failure Nat) r => r.mapM f) where
  fixed {f r} hf := by
    cases r with
    | none => rfl
    | some r => exact congrArg (some <$> ·) (hf r List.mem_cons_self)
  renumber {g r} _ := by
    cases r with
    | none => exact ⟨none, rfl, fun _ _ => rfl, fun _ _ => rfl⟩
    | some r =>
        exact ⟨some (g r), rfl, fun f hf => congrArg (some <$> ·) (hf r List.mem_cons_self),
          fun f hf => congrArg (some <$> ·) (hf r List.mem_cons_self)⟩

def Opcode.equiv : Opcode ≃ Enqueue ⊕ (Nat ⊕ (Nat ⊕ Nat)) where
  toFun
    | .enqueue flags => .inl flags
    | .enqueueRegisters fifoIndex => .inr (.inl fifoIndex)
    | .dequeueRegisters fifoIndex => .inr (.inr (.inl fifoIndex))
    | .other opcode => .inr (.inr (.inr opcode))
  invFun
    | .inl flags => .enqueue flags
    | .inr (.inl fifoIndex) => .enqueueRegisters fifoIndex
    | .inr (.inr (.inl fifoIndex)) => .dequeueRegisters fifoIndex
    | .inr (.inr (.inr opcode)) => .other opcode
  left_inv x := by cases x <;> rfl
  right_inv x := by rcases x with _ | _ | _ | _ <;> rfl

theorem opcode_renumbers : Renumbers Opcode.references Opcode.update := by
  refine .of_equiv Opcode.equiv
    (.sum enqueue_renumbers (.sum .register (.sum .register (.constant (α := Nat)))))
    (fun x => by cases x <;> rfl) (fun f x => ?_)
  cases x with
  | enqueue flags =>
      show _ = _ <$> Sum.inl <$> flags.update f
      rw [Functor.map_map]
      rfl
  | enqueueRegisters r =>
      show _ = _ <$> Sum.inr <$> Sum.inl <$> f r
      rw [Functor.map_map, Functor.map_map]
      rfl
  | dequeueRegisters r =>
      show _ = _ <$> Sum.inr <$> Sum.inr <$> Sum.inl <$> f r
      rw [Functor.map_map, Functor.map_map, Functor.map_map]
      rfl
  | other opcode => rfl

def Operation.equiv :
    Operation ≃ List SourceOperand × List DestinationOperand × Opcode where
  toFun op := (op.src, op.dst, op.opcode)
  invFun t := ⟨t.2.2, t.1, t.2.1⟩
  left_inv _ := rfl
  right_inv _ := rfl

theorem operation_renumbers : Renumbers Operation.references Operation.update :=
  .of_equiv Operation.equiv (.pair (.list sourceOperand_renumbers)
    (.pair (.list destinationOperand_renumbers) opcode_renumbers)) (fun _ => rfl)
    (fun f op => by simp [Operation.update, Operation.equiv])

def BasicBlock.equiv :
    BasicBlock ≃ (List Operation × List Operation × List (List Operation) × List Nat × List Nat ×
      List Nat × List Nat × Option Nat) × List Nat where
  toFun b := ((b.startConditionOperations, b.operations, b.stages, b.liveInReg, b.forcedDeadInReg,
    b.returnValueReg, b.externalOnlyLiveInReg, b.invocationInstanceRegisterIndex),
    b.intraStageRegisters)
  invFun t := ⟨t.1.1, t.1.2.1, t.1.2.2.1, t.1.2.2.2.1, t.1.2.2.2.2.1, t.1.2.2.2.2.2.1,
    t.1.2.2.2.2.2.2.1, t.1.2.2.2.2.2.2.2, t.2⟩
  left_inv _ := rfl
  right_inv _ := rfl

theorem basicBlock_renumbers : Renumbers BasicBlock.references BasicBlock.update :=
  .of_equiv BasicBlock.equiv (.pair (.pair (.list operation_renumbers)
    (.pair (.list operation_renumbers) (.pair (.list (.list operation_renumbers))
      (.pair registers_renumber (.pair registers_renumber (.pair registers_renumber
        (.pair registers_renumber optional_renumbers))))))) .constant)
    (fun b => (List.append_nil _).symm) (fun f b => by simp [BasicBlock.update, BasicBlock.equiv])

def Function.equiv : Function ≃ List BasicBlock × Option Nat where
  toFun f := (f.basicBlocks, f.returnFifoRegisterIndex)
  invFun t := ⟨t.1, t.2⟩
  left_inv _ := rfl
  right_inv _ := rfl

theorem function_renumbers : Renumbers Function.references Function.update :=
  .of_equiv Function.equiv (.pair (.list basicBlock_renumbers) optional_renumbers) (fun _ => rfl)
    (fun f g => by simp [Function.update, Function.equiv])

def LoopGenerator.equiv : LoopGenerator ≃ Nat × Nat where
  toFun l := (l.counterLocalRegisterIndex, l.threadCountOneRegisterIndex)
  invFun t := ⟨t.1, t.2⟩
  left_inv _ := rfl
  right_inv _ := rfl

theorem loopGenerator_renumbers : Renumbers LoopGenerator.references LoopGenerator.update :=
  .of_equiv LoopGenerator.equiv (.pair .register .register) (fun _ => rfl)
    (fun f l => by simp [LoopGenerator.update, LoopGenerator.equiv])

def Holders.equiv : Holders ≃ List Function × List (String × List Operation) ×
    List LoopGenerator × List (List Nat) × List (List Nat) where
  toFun h := (h.functions, h.globalViewFunctions, h.loopGenerators, h.inspectableVariables,
    h.codeCoverageVariables)
  invFun t := ⟨t.1, t.2.1, t.2.2.1, t.2.2.2.1, t.2.2.2.2⟩
  left_inv _ := rfl
  right_inv _ := rfl

theorem holders_renumber : Renumbers Holders.references Holders.update :=
  .of_equiv Holders.equiv (.pair (.list function_renumbers)
    (.pair (.list (.pair .constant (.list operation_renumbers)))
      (.pair (.list loopGenerator_renumbers) (.pair (.list registers_renumber)
        (.list registers_renumber))))) (fun _ => rfl)
    (fun f h => by simp [Holders.update, Holders.equiv])

/-! ## The table -/

/-- The map and the table after some registers: the used ones are mapped in order, to entries
    of the same description, and the new table has no others. -/
structure Built {D : Type} (usedRegisters : List Nat) (table : List D)
    (s : RegisterIndexMap × List D) : Prop where
  key : ∀ {old : Nat}, (∃ new : Nat, s.1[old]? = some new) ↔ old < table.length ∧ old ∈ usedRegisters
  value : ∀ {old new : Nat}, s.1[old]? = some new → new < s.2.length ∧ s.2[new]? = table[old]?
  mono : ∀ {o n o' n' : Nat}, s.1[o]? = some n → s.1[o']? = some n' → o < o' → n < n'
  onto : ∀ {n : Nat}, n < s.2.length → ∃ o : Nat, s.1[o]? = some n

theorem buildTable_append {D : Type} (usedRegisters : List Nat) (table : List D) (d : D) :
    buildTable usedRegisters (table ++ [d])
      = compactStep usedRegisters (buildTable usedRegisters table) (d, table.length) := by
  rw [buildTable, List.zipIdx_append, List.foldl_append, Nat.zero_add]
  rfl

theorem Built.step {D : Type} {usedRegisters : List Nat} {table : List D}
    {s : RegisterIndexMap × List D} (h : Built usedRegisters table s) (d : D) :
    Built usedRegisters (table ++ [d]) (compactStep usedRegisters s (d, table.length)) := by
  have hlt : ∀ {o n : Nat}, s.1[o]? = some n → o < table.length := fun ho => (h.key.mp ⟨_, ho⟩).1
  have hvalue : ∀ {o n : Nat}, s.1[o]? = some n → s.2[n]? = (table ++ [d])[o]? := fun ho => by
    rw [List.getElem?_append_left (hlt ho), (h.value ho).2]
  by_cases hused : table.length ∈ usedRegisters
  · rw [compactStep, if_pos (List.contains_iff_mem.mpr hused)]
    refine ⟨fun {old} => ?_, fun {old new} hold => ?_, fun {o n o' n'} ho ho' hoo' => ?_,
      fun {n} hn => ?_⟩
    · rw [List.length_append, List.length_singleton]
      by_cases hold : table.length = old
      · subst hold
        exact iff_of_true ⟨_, by rw [getElem?_insert, if_pos rfl]⟩ ⟨by omega, hused⟩
      · simp only [getElem?_insert, if_neg hold]
        exact h.key.trans (and_congr_left fun _ => by omega)
    · rw [getElem?_insert] at hold
      rw [List.length_append, List.length_singleton]
      split at hold
      · next heq =>
          obtain rfl := Option.some.inj hold
          subst heq
          exact ⟨by omega, by simp⟩
      · obtain ⟨hnew, -⟩ := h.value hold
        exact ⟨by omega, by rw [List.getElem?_append_left hnew, hvalue hold]⟩
    · rw [getElem?_insert] at ho ho'
      split at ho'
      · obtain rfl := Option.some.inj ho'
        rw [if_neg (by omega)] at ho
        exact (h.value ho).1
      · have := hlt ho'
        rw [if_neg (by omega)] at ho
        exact h.mono ho ho' hoo'
    · rw [List.length_append, List.length_singleton] at hn
      by_cases heq : n = s.2.length
      · exact ⟨table.length, by rw [getElem?_insert, if_pos rfl, heq]⟩
      · obtain ⟨o, ho⟩ := h.onto (show n < s.2.length by omega)
        have := hlt ho
        exact ⟨o, by rw [getElem?_insert, if_neg (by omega), ho]⟩
  · rw [compactStep, if_neg fun hc => hused (List.contains_iff_mem.mp hc)]
    refine ⟨fun {old} => h.key.trans ?_, fun hold => ⟨(h.value hold).1, hvalue hold⟩, h.mono, h.onto⟩
    rw [List.length_append, List.length_singleton]
    refine and_congr_left fun hold => ?_
    have hne : old ≠ table.length := fun heq => hused (heq ▸ hold)
    omega

theorem built {D : Type} (usedRegisters : List Nat) (table : List D) :
    Built usedRegisters table (buildTable usedRegisters table) := by
  induction table using List.reverseRecOn with
  | nil =>
      refine ⟨fun {old} => ?_, fun h => ?_, fun h => ?_, fun h => ?_⟩
      · simp [buildTable]
      · simp [buildTable] at h
      · simp [buildTable] at h
      · simp [buildTable] at h
  | append_singleton table d ih =>
      rw [buildTable_append]
      exact ih.step d

/-- Where all registers are used, they keep their numbers. -/
theorem buildTable_all {D : Type} {usedRegisters : List Nat} (table : List D)
    (h : ∀ r, r < table.length → r ∈ usedRegisters) :
    (buildTable usedRegisters table).2 = table ∧
      ∀ r, r < table.length → (buildTable usedRegisters table).1[r]? = some r := by
  induction table using List.reverseRecOn with
  | nil => exact ⟨rfl, fun r hr => absurd hr (Nat.not_lt_zero r)⟩
  | append_singleton table d ih =>
      rw [List.length_append, List.length_singleton] at h ⊢
      obtain ⟨htable, hmap⟩ := ih fun r hr => h r (by omega)
      rw [buildTable_append, compactStep,
        if_pos (List.contains_iff_mem.mpr (h table.length (by omega))), htable]
      refine ⟨rfl, fun r hr => ?_⟩
      rw [getElem?_insert]
      split
      · next heq => exact congrArg some heq
      · exact hmap r (by omega)

/-! ## The pass -/

theorem BasicBlock.update_intraStage {f : Nat → Except Failure Nat} {b b' : BasicBlock}
    (h : b.update f = .ok b') : b'.intraStageRegisters = b.intraStageRegisters := by
  simp only [BasicBlock.update, bind_eq_ok_iff, pure_eq_ok, Except.ok.injEq] at h
  obtain ⟨_, -, _, -, _, -, _, -, _, -, _, -, _, -, _, -, rfl⟩ := h
  rfl

theorem Function.update_intraStage {f : Nat → Except Failure Nat} {g g' : Function}
    (h : g.update f = .ok g') :
    g'.basicBlocks.all (·.intraStageRegisters.isEmpty)
      = g.basicBlocks.all (·.intraStageRegisters.isEmpty) := by
  simp only [Function.update, bind_eq_ok_iff, pure_eq_ok, Except.ok.injEq] at h
  obtain ⟨blocks, hblocks, _, -, rfl⟩ := h
  obtain ⟨basicBlocks, _⟩ := g
  have hrel := mapM_related hblocks
  clear hblocks
  simp only at hrel ⊢
  induction hrel with
  | nil => rfl
  | cons hb _ ih => rw [List.all_cons, List.all_cons, BasicBlock.update_intraStage hb, ih]

theorem Holders.update_intraStage {f : Nat → Except Failure Nat} {h h' : Holders}
    (hok : h.update f = .ok h') :
    h'.functions.all (·.basicBlocks.all (·.intraStageRegisters.isEmpty))
      = h.functions.all (·.basicBlocks.all (·.intraStageRegisters.isEmpty)) := by
  simp only [Holders.update, bind_eq_ok_iff, pure_eq_ok, Except.ok.injEq] at hok
  obtain ⟨functions, hfunctions, _, -, _, -, _, -, _, -, rfl⟩ := hok
  obtain ⟨functions, _, _, _, _⟩ := h
  have hrel := mapM_related hfunctions
  clear hfunctions
  simp only at hrel ⊢
  induction hrel with
  | nil => rfl
  | cons hg _ ih => rw [List.all_cons, List.all_cons, Function.update_intraStage hg, ih]

section

variable {D : Type}

/-- The new number of a register. -/
def Program.renumber (program : Program D) (r : Nat) : Nat :=
  (buildTable program.references program.registerTable).1[r]?.getD 0

/-- No block holds registers between the stages. -/
def Program.NoIntraStage (program : Program D) : Prop :=
  program.functions.all (·.basicBlocks.all (·.intraStageRegisters.isEmpty)) = true

theorem Program.lookup {program : Program D}
    (href : ∀ r ∈ program.references, r < program.registerTable.length) {r : Nat}
    (hr : r ∈ program.references) :
    (buildTable program.references program.registerTable).1[r]? = some (program.renumber r) := by
  obtain ⟨new, hnew⟩ := (built program.references program.registerTable).key.mpr ⟨href r hr, hr⟩
  rw [renumber, hnew]
  rfl

theorem Program.renumber_strictMonoOn {program : Program D}
    (href : ∀ r ∈ program.references, r < program.registerTable.length) :
    StrictMonoOn program.renumber {r | r ∈ program.references} := fun _ hr _ hs hlt =>
  (built program.references program.registerTable).mono (lookup href hr) (lookup href hs) hlt

/-- The new number of an allocated leaf register. -/
def Program.leafIndex (program : Program D) (r : Nat) : Nat :=
  (buildTable program.references program.registerTable).1[r]?.getD deadRegisterIndex

/-- The program with the new table, and with structures that hold the new numbers. -/
def Program.compacted (program : Program D) (holders : Holders) : Program D where
  toHolders := holders
  objectNameToGlobals := program.objectNameToGlobals.map fun p =>
    (p.1, p.2.filterMap ((buildTable program.references program.registerTable).1[·]?))
  registerTable := (buildTable program.references program.registerTable).2

/-- What the pass returns on a program whose references are in the table. -/
theorem compactRegisterTable_ok {program : Program D} (hintra : program.NoIntraStage)
    (href : ∀ r ∈ program.references, r < program.registerTable.length) :
    ∃ holders : Holders, holders.references = program.references.map program.renumber ∧
      (program.compacted holders).NoIntraStage ∧
      (∀ leafRegisters, compactRegisterTable program leafRegisters
        = .ok (program.compacted holders, leafRegisters.map program.leafIndex)) ∧
      ∀ f : Nat → Except Failure Nat, (∀ r ∈ program.references, f (program.renumber r) = .ok r) →
        holders.update f = .ok program.toHolders := by
  obtain ⟨holders, hholders, hto, hback⟩ :=
    holders_renumber.renumber (Program.renumber_strictMonoOn href)
  have hupdate := hto _ fun r hr => safeLookup_of_some (Program.lookup href hr)
  refine ⟨holders, hholders, (Holders.update_intraStage hupdate).trans hintra,
    fun leafRegisters => ?_, hback⟩
  rw [compactRegisterTable, assert_of_true hintra, ok_bind]
  dsimp only
  rw [hupdate, ok_bind]
  rfl

/-- All globals of the objects are used registers. -/
def Program.GlobalsInTable (program : Program D) : Prop :=
  ∀ p ∈ program.objectNameToGlobals, ∀ r ∈ p.2, r < program.registerTable.length

/-- A program that uses every register of its table stays as it is. -/
theorem compactRegisterTable_all {program : Program D} (hintra : program.NoIntraStage)
    (href : ∀ r ∈ program.references, r < program.registerTable.length)
    (hglobals : program.GlobalsInTable)
    (hall : ∀ r, r < program.registerTable.length → r ∈ program.references)
    (leafRegisters : List Nat) : compactRegisterTable program leafRegisters
      = .ok (program, leafRegisters.map program.leafIndex) := by
  obtain ⟨htable, hmap⟩ := buildTable_all program.registerTable hall
  have hsame : (program.objectNameToGlobals.map fun p => (p.1, p.2.filterMap
      ((buildTable program.references program.registerTable).1[·]?)))
      = program.objectNameToGlobals := by
    refine (List.map_congr_left fun p hp => ?_).trans (List.map_id _)
    have hsome : p.2.filterMap ((buildTable program.references program.registerTable).1[·]?)
        = p.2.filterMap some := List.filterMap_congr fun r hr => hmap r (hglobals p hp r hr)
    rw [hsome, List.filterMap_some]
    rfl
  rw [compactRegisterTable, assert_of_true hintra, ok_bind]
  dsimp only
  rw [holders_renumber.fixed fun r hr => safeLookup_of_some (hmap r (href r hr)), ok_bind, hsame,
    htable]
  rfl

/-- The new table holds exactly the registers that the new program refers to. -/
theorem Program.compacted_inTable {program : Program D} {holders : Holders}
    (href : ∀ r ∈ program.references, r < program.registerTable.length)
    (hholders : holders.references = program.references.map program.renumber) :
    (∀ r ∈ (program.compacted holders).references,
      r < (program.compacted holders).registerTable.length) ∧
    (program.compacted holders).GlobalsInTable ∧
    ∀ r, r < (program.compacted holders).registerTable.length →
      r ∈ (program.compacted holders).references := by
  have hbuilt := built program.references program.registerTable
  have hrefs : (program.compacted holders).references = program.references.map program.renumber :=
    hholders
  rw [hrefs]
  refine ⟨fun r hr => ?_, fun p hp r hr => ?_, fun r hr => ?_⟩
  · obtain ⟨o, ho, rfl⟩ := List.mem_map.mp hr
    exact (hbuilt.value (lookup href ho)).1
  · obtain ⟨q, -, rfl⟩ := List.mem_map.mp hp
    obtain ⟨o, -, ho⟩ := List.mem_filterMap.mp hr
    exact (hbuilt.value ho).1
  · obtain ⟨o, ho⟩ := hbuilt.onto hr
    have hmem := (hbuilt.key.mp ⟨r, ho⟩).2
    refine List.mem_map.mpr ⟨o, hmem, ?_⟩
    rw [renumber, ho]
    rfl

/-- A leaf register that is out of the table stays so. -/
theorem Program.leafIndex_compacted {program : Program D} {holders : Holders}
    (hall : ∀ r, r < (program.compacted holders).registerTable.length →
      r ∈ (program.compacted holders).references)
    (hdead : (program.compacted holders).registerTable.length ≤ deadRegisterIndex) (r : Nat) :
    (program.compacted holders).leafIndex (program.leafIndex r) = program.leafIndex r := by
  obtain ⟨-, hmap⟩ := buildTable_all (program.compacted holders).registerTable hall
  have hbuilt := built program.references program.registerTable
  have hbuilt' := built (program.compacted holders).references
    (program.compacted holders).registerTable
  cases hr : (buildTable program.references program.registerTable).1[r]? with
  | some new =>
      have hleaf : program.leafIndex r = new := by rw [leafIndex, hr]; rfl
      rw [hleaf, leafIndex, hmap new (hbuilt.value hr).1]
      rfl
  | none =>
      have hleaf : program.leafIndex r = deadRegisterIndex := by rw [leafIndex, hr]; rfl
      rw [hleaf, leafIndex]
      cases hnew : (buildTable (program.compacted holders).references
          (program.compacted holders).registerTable).1[deadRegisterIndex]? with
      | none => rfl
      | some new => exact absurd (hbuilt'.key.mp ⟨new, hnew⟩).1 (not_lt.mpr hdead)

/-- Every register a program holds is renumbered to an entry of the same description, different
    ones to different ones; nothing else changes, and compacting again changes nothing. -/
theorem compactRegisterTable_renumbers {program : Program D} (leafRegisters : List Nat)
    (hintra : program.NoIntraStage)
    (href : ∀ r ∈ program.references, r < program.registerTable.length) :
    ∃ (compacted : Program D) (leafRegisters' : List Nat) (renumber : Nat → Nat),
      compactRegisterTable program leafRegisters = .ok (compacted, leafRegisters') ∧
      compacted.references = program.references.map renumber ∧
      (∀ r ∈ program.references, renumber r < compacted.registerTable.length ∧
        compacted.registerTable[renumber r]? = program.registerTable[r]?) ∧
      (∀ r ∈ program.references, ∀ s ∈ program.references, renumber r = renumber s ↔ r = s) ∧
      (∀ f : Nat → Except Failure Nat, (∀ r ∈ program.references, f (renumber r) = .ok r) →
        compacted.toHolders.update f = .ok program.toHolders) ∧
      (∀ others, ∃ others', compactRegisterTable compacted others = .ok (compacted, others')) ∧
      (compacted.registerTable.length ≤ deadRegisterIndex →
        compactRegisterTable compacted leafRegisters' = .ok (compacted, leafRegisters')) := by
  obtain ⟨holders, hholders, hintra', hok, hback⟩ := compactRegisterTable_ok hintra href
  have hbuilt := built program.references program.registerTable
  have hmono := Program.renumber_strictMonoOn href
  obtain ⟨href', hglobals, hall⟩ := Program.compacted_inTable href hholders
  have hagain := compactRegisterTable_all hintra' href' hglobals hall
  refine ⟨program.compacted holders, _, program.renumber, hok leafRegisters, hholders,
    fun r hr => hbuilt.value (Program.lookup href hr), fun r hr s hs => hmono.injOn.eq_iff hr hs,
    hback, fun others => ⟨_, hagain others⟩, fun hdead => ?_⟩
  rw [hagain, List.map_map]
  congr 2
  exact List.map_congr_left fun r _ => Program.leafIndex_compacted hall hdead r

/-- A program of one operation, which reads two of five registers. -/
def sampleProgram : Program String where
  functions := [⟨[⟨[], [⟨.other 0, [.register 3], [.register 1]⟩], [], [3], [], [], [], none, []⟩],
    some 4⟩]
  globalViewFunctions := []
  loopGenerators := []
  inspectableVariables := []
  codeCoverageVariables := []
  objectNameToGlobals := [("global", [2, 4])]
  registerTable := ["a", "b", "c", "d", "e"]

theorem compactRegisterTable_renumbers_sample :
    ∃ compacted leafRegisters', compactRegisterTable sampleProgram [0, 3]
        = .ok (compacted, leafRegisters') ∧
      ∀ others, ∃ others', compactRegisterTable compacted others = .ok (compacted, others') := by
  obtain ⟨compacted, leafRegisters', _, hok, -, -, -, -, hagain, -⟩ :=
    compactRegisterTable_renumbers [0, 3] (show sampleProgram.NoIntraStage from rfl) (by decide)
  exact ⟨compacted, leafRegisters', hok, hagain⟩

end

/-! ## The tables of an enqueue -/

/-- The entries of a renumbered table. -/
theorem updateMap_getElem? {f : Nat → Except Failure Nat} {g : Nat → Nat} {t : RegisterIndexMap}
    (hg : StrictMonoOn g {r | r ∈ mapReferences t}) (hf : ∀ r ∈ mapReferences t, f r = .ok (g r)) :
    ∃ t', updateMap f t = .ok t' ∧
      ∀ k v : Nat, t'[k]? = some v ↔ ∃ k0 v0 : Nat, t[k0]? = some v0 ∧ g k0 = k ∧ g v0 = v := by
  have hsorted : (t.toList.map fun p => (g p.1, g p.2)).Pairwise (fun p q => p.1 < q.1) := by
    refine List.pairwise_map.mpr ((toList_sorted t).imp_of_mem fun hp hq hlt => ?_)
    exact hg (mapReferences_left hp) (mapReferences_left hq) hlt
  obtain ⟨t', hok, hlist⟩ := foldlM_insert hsorted
  refine ⟨t', ?_, fun k v => ?_⟩
  · rw [updateMap, foldlM_lookups (fun p => g p.1) (fun p => g p.2) _ _ fun p hp =>
      ⟨hf _ (mapReferences_left hp), hf _ (mapReferences_right hp)⟩]
    exact hok
  · rw [← mem_toList_iff, hlist]
    simp [mem_toList_iff]

/-- The two tables of an enqueue that are inverse to each other still are so after compaction. -/
theorem Enqueue.update_inverse {D : Type} {usedRegisters : List Nat} {table : List D} {e : Enqueue}
    (href : ∀ r ∈ e.references, r < table.length ∧ r ∈ usedRegisters)
    (hinverse : ∀ o n : Nat, e.renamingTable[o]? = some n ↔ e.reverseRenamingTable[n]? = some o) :
    ∃ e', e.update (safeLookup (buildTable usedRegisters table).1) = .ok e' ∧
      ∀ o n : Nat, e'.renamingTable[o]? = some n ↔ e'.reverseRenamingTable[n]? = some o := by
  have hbuilt := built usedRegisters table
  have hnew : ∀ r ∈ e.references, (buildTable usedRegisters table).1[r]?
      = some ((buildTable usedRegisters table).1[r]?.getD 0) := fun r hr => by
    obtain ⟨new, hnew⟩ := hbuilt.key.mpr (href r hr)
    rw [hnew]
    rfl
  obtain ⟨e', -, hto, -⟩ := enqueue_renumbers.renumber (x := e)
    fun r hr s hs hlt => hbuilt.mono (hnew r hr) (hnew s hs) hlt
  have hok := hto _ fun r hr => safeLookup_of_some (hnew r hr)
  refine ⟨e', hok, fun o n => ?_⟩
  have hleft : ∀ r ∈ mapReferences e.renamingTable, r ∈ e.references := fun r hr =>
    List.mem_append_right _ (List.mem_append_right _ (List.mem_append_left _ hr))
  have hright : ∀ r ∈ mapReferences e.reverseRenamingTable, r ∈ e.references := fun r hr =>
    List.mem_append_right _ (List.mem_append_right _ (List.mem_append_right _ hr))
  obtain ⟨table1, hok1, htable1⟩ := updateMap_getElem?
    (fun r hr s hs hlt => hbuilt.mono (hnew r (hleft r hr)) (hnew s (hleft s hs)) hlt)
    fun r hr => safeLookup_of_some (hnew r (hleft r hr))
  obtain ⟨table2, hok2, htable2⟩ := updateMap_getElem?
    (fun r hr s hs hlt => hbuilt.mono (hnew r (hright r hr)) (hnew s (hright s hs)) hlt)
    fun r hr => safeLookup_of_some (hnew r (hright r hr))
  have htables : e'.renamingTable = table1 ∧ e'.reverseRenamingTable = table2 := by
    cases hc : e.hasSuccessorBlock <;> cases ht : e.type == .reorderBuffer <;>
      simp [Enqueue.update, hc, ht, hok1, hok2, bind_eq_ok_iff, pure_eq_ok] at hok <;> grind
  rw [htables.1, htables.2, htable1, htable2, exists_comm]
  simp only [hinverse, and_comm]

/-- Register 2 is renamed to register 3 and back. -/
def renamingEnqueue : Enqueue :=
  ⟨true, 0, .default, 0, Std.ExtTreeMap.insert ∅ 2 3, Std.ExtTreeMap.insert ∅ 3 2⟩

theorem Enqueue.update_inverse_renaming :
    ∃ e', renamingEnqueue.update (safeLookup (buildTable [2, 3] [(), (), (), ()]).1) = .ok e' ∧
      ∀ o n : Nat, e'.renamingTable[o]? = some n ↔ e'.reverseRenamingTable[n]? = some o := by
  refine Enqueue.update_inverse (e := renamingEnqueue) (by decide) fun o n => ?_
  simp only [renamingEnqueue, getElem?_insert, Std.ExtTreeMap.getElem?_empty]
  grind

end Kanagawa.Lower.Compact
