/-
  Kanagawa.Optimize.CommonSubexpressionSound

  Common subexpression elimination preserves the meaning of a block.

  A local register of a renamed block has one value from its write on, and is not
  read before.  An operation that is found equal to an earlier one therefore reads
  what the earlier one read, and the result of the earlier one is still there.
-/
import Kanagawa.IR.Globals
import Kanagawa.Lib.NatMap
import Kanagawa.Optimize.CommonSubexpression

namespace Kanagawa.Optimize

open IR Lib.Bits Lib.Except Lib.NatMap

theorem getElem_mem_zip {α β : Type} {l : List α} {l' : List β} {i : Nat} (hi : i < l.length)
    (hi' : i < l'.length) : (l[i], l'[i]) ∈ l.zip l' := by
  rw [← List.getElem_zip (h := by rw [List.length_zip]; omega)]
  exact List.getElem_mem _

/-! ## Operators -/

/-- A machine whose operators are functions of their sources: where the reference arithmetic
    has no result, what an operator gives depends on nothing else either. -/
structure CombinationalMachine (W : Type) extends Machine W where
  compute : Opcode → Nat → List Target → List Value → List Nat
  exec_computes : ∀ (info : OpInfo) (values : List Value) (world : W),
    doesOpcodeSupportCommonSubexpressionElimination info.opcode = true →
    exec info values world =
      (compute info.opcode info.signExtendSourceMask info.targets values, tick world)

namespace CombinationalMachine

variable {W : Type} (m : CombinationalMachine W)

/-- What an operator gives. -/
def result (opcode : Opcode) (mask : Nat) (targets : List Target) (values : List Value) :
    List Nat :=
  match OpInfo.pureResult? ⟨opcode, mask, 0, targets⟩ values with
  | some result => [result]
  | none => m.compute opcode mask targets values

theorem run_eq {info : OpInfo} (hopcode :
    doesOpcodeSupportCommonSubexpressionElimination info.opcode = true) (values : List Value)
    (world : W) :
    m.toMachine.run info values world =
      (m.result info.opcode info.signExtendSourceMask info.targets values, m.tick world) := by
  have htag : info.pureResult? values =
      OpInfo.pureResult? ⟨info.opcode, info.signExtendSourceMask, 0, info.targets⟩ values := rfl
  rw [Machine.run, result, htag]
  cases OpInfo.pureResult? ⟨info.opcode, info.signExtendSourceMask, 0, info.targets⟩ values with
  | some result => rfl
  | none => exact m.exec_computes info values world hopcode

end CombinationalMachine

/-! ## Operations that take part -/

/-- What is known of an operation that takes part. -/
structure TakesPart (table : RegisterTable) (op : Operation) (dst : Nat) : Prop where
  dst_eq : op.dst = [.register dst]
  opcode : doesOpcodeSupportCommonSubexpressionElimination op.opcode = true
  local_dst : table.isLocal dst = true
  local_src : ∀ r ∈ op.reads, table.isLocal r = true

theorem doesOpSupportCse_spec {table : RegisterTable} {transformLuts : Bool} {op : Operation}
    (h : doesOpSupportCse table transformLuts op = .ok true) :
    doesOpcodeSupportCommonSubexpressionElimination op.opcode = true ∧
      operationUsesOnlyLocalReg table op = true ∧
      (∀ entries, op.opcode = .lut entries → transformLuts = true) := by
  rw [doesOpSupportCse] at h
  split at h
  · exact nomatch h
  · rename_i hopcode
    rw [Bool.not_eq_true', Bool.not_eq_false] at hopcode
    split at h
    · rename_i entries hlut
      obtain ⟨htransform, hlocal⟩ := Bool.and_eq_true_iff.mp (Except.ok.inj h)
      exact ⟨hopcode, hlocal, fun _ _ => htransform⟩
    · rename_i hmov
      rw [bind_eq_ok_iff] at h
      obtain ⟨resizing, -, h⟩ := h
      refine ⟨hopcode, (Bool.and_eq_true_iff.mp (Except.ok.inj h)).2, fun entries hlut => ?_⟩
      rw [hmov] at hlut
      exact nomatch hlut
    · rename_i hlut _
      exact ⟨hopcode, Except.ok.inj h, fun entries heq => absurd heq (hlut entries)⟩

theorem takesPart_of_support {table : RegisterTable} {transformLuts : Bool} {op : Operation}
    {dst : Nat} (hdst : op.dst = [.register dst])
    (h : doesOpSupportCse table transformLuts op = .ok true) : TakesPart table op dst := by
  obtain ⟨hopcode, hlocal, -⟩ := doesOpSupportCse_spec h
  obtain ⟨hsrc, hdsts⟩ := Bool.and_eq_true_iff.mp hlocal
  refine ⟨hdst, hopcode, List.all_eq_true.mp hdsts dst ?_, List.all_eq_true.mp hsrc⟩
  rw [Operation.writes, hdst]
  exact List.mem_singleton.mpr rfl

section

variable {W : Type} {m : CombinationalMachine W} {table : RegisterTable}

/-- What an operator gives its register in a state. -/
def resultAt (m : CombinationalMachine W) (table : RegisterTable) (σ : State W)
    (op : Operation) : Nat :=
  (m.result op.opcode op.signExtendSourceMask (op.dst.map (target table))
    (evalSources m.toMachine table σ op)).headD 0

theorem TakesPart.exec {op : Operation} {dst : Nat} (h : TakesPart table op dst) (σ : State W) :
    execOperation m.toMachine table σ op =
      ⟨Function.update σ.locals dst (resultAt m table σ op % 2 ^ (table.desc dst).width),
        m.tick σ.world⟩ := by
  have hrun : m.toMachine.run (op.info table) (evalSources m.toMachine table σ op) σ.world =
      (m.result op.opcode op.signExtendSourceMask (op.dst.map (target table))
        (evalSources m.toMachine table σ op), m.tick σ.world) := m.run_eq h.opcode _ _
  rw [execOperation, hrun, resultAt]
  simp only [h.dst_eq, writeDestinations, h.local_dst, if_true]

theorem TakesPart.targets {op : Operation} {dst : Nat} (h : TakesPart table op dst) :
    op.dst.map (target table) = [.local (table.desc dst).width] := by
  rw [h.dst_eq, List.map_singleton, target, if_pos h.local_dst]

/-- A source that names no FIFO has the same value when the registers that are read have. -/
theorem evalSource_congr {σ σ' : State W} {src : SourceOperand} (hfifo : ∀ f, src ≠ .fifo f)
    (hreg : ∀ r, src = .register r → table.isLocal r = true ∧ σ.locals r = σ'.locals r) :
    evalSource m.toMachine table σ src = evalSource m.toMachine table σ' src := by
  cases src with
  | literal l => rfl
  | stringLiteral s => rfl
  | fifo f => exact absurd rfl (hfifo f)
  | register r =>
    obtain ⟨hlocal, hvalue⟩ := hreg r rfl
    simp only [evalSource, hlocal, if_true, hvalue]

theorem TakesPart.evalSources_congr {op : Operation} {dst : Nat} (h : TakesPart table op dst)
    {σ σ' : State W} (hfifo : ∀ f, SourceOperand.fifo f ∉ op.src)
    (hlocals : ∀ r ∈ op.reads, σ.locals r = σ'.locals r) :
    evalSources m.toMachine table σ op = evalSources m.toMachine table σ' op := by
  refine List.map_congr_left fun src hsrc => evalSource_congr ?_ ?_
  · rintro f rfl
    exact hfifo f hsrc
  · rintro r rfl
    have hread : r ∈ op.reads := List.mem_filterMap.mpr ⟨_, hsrc, rfl⟩
    exact ⟨h.local_src r hread, hlocals r hread⟩

/-- A move of a local register to one of the same width copies its value. -/
theorem moveOfResult_exec {σ : State W} {k dst : Nat} (hk : table.isLocal k = true)
    (hdst : table.isLocal dst = true) (hwidth : (table.desc k).width = (table.desc dst).width) :
    execOperation m.toMachine table σ (moveOfResult k dst) =
      ⟨Function.update σ.locals dst (σ.locals k % 2 ^ (table.desc dst).width),
        m.tick σ.world⟩ := by
  have hpart : TakesPart table (moveOfResult k dst) dst := by
    refine ⟨rfl, rfl, hdst, fun r hr => ?_⟩
    rw [List.mem_singleton.mp hr]
    exact hk
  rw [hpart.exec]
  -- A register without bits has the value 0 whatever is moved to it
  rcases Nat.eq_zero_or_pos (table.desc dst).width with hzero | hpos
  · rw [hzero, Nat.pow_zero, Nat.mod_one, Nat.mod_one]
  · have hsources : evalSources m.toMachine table σ (moveOfResult k dst) =
        [.bits (σ.locals k % 2 ^ (table.desc dst).width) (table.desc dst).width] := by
      simp only [evalSources, moveOfResult, List.map_singleton, evalSource, hk, if_true, hwidth]
    have hresult : resultAt m table σ (moveOfResult k dst) =
        σ.locals k % 2 ^ (table.desc dst).width := by
      rw [resultAt, CombinationalMachine.result, hsources, hpart.targets]
      have hresize := resize_unsigned (a := σ.locals k % 2 ^ (table.desc dst).width)
        (d := (table.desc dst).width) hpos
      simp only [OpInfo.pureResult?, moveOfResult, List.mapM_cons, List.mapM_nil, Value.literal?,
        Option.pure_def, Option.bind_eq_bind, Option.bind_some, pureResult, Nat.zero_testBit,
        hresize, Except.toOption, Nat.mod_mod]
      rfl
    rw [hresult, Nat.mod_mod]

end

/-! ## Lookup tables -/

/-- The form in which `FixupLutOps` leaves a lookup table: its sources are different
    registers, all of them are used, and no two columns of an entry look at the same bit. -/
structure CanonicalLut (op : Operation) (entries : List LutEntry) : Prop where
  src_eq : op.src = op.reads.map .register
  reads_nodup : op.reads.Nodup
  used : ∀ i < op.src.length, ∃ entry ∈ entries, ∃ source ∈ entry.sources, source.1 = i
  columns_nodup : ∀ entry ∈ entries, entry.sources.Nodup

theorem CanonicalLut.getElem? {op : Operation} {entries : List LutEntry}
    (h : CanonicalLut op entries) {i r : Nat} :
    op.src[i]? = some (.register r) ↔ op.reads[i]? = some r := by
  conv_lhs => rw [h.src_eq]
  rw [List.getElem?_map, Option.map_eq_some_iff]
  constructor
  · rintro ⟨r', hr', heq⟩
    rwa [← SourceOperand.register.inj heq]
  · exact fun hr => ⟨r, hr, rfl⟩

/-- Elements that are related one by one are different if those of one list are, and none of
    the other list is related to two of them. -/
theorem nodup_of_forall₂ {α β : Type} {R : α → β → Prop} {l : List α} {l' : List β}
    (h : List.Forall₂ R l l') (hunique : ∀ a a' b, R a b → R a' b → a = a')
    (hnodup : l.Nodup) : l'.Nodup := by
  induction h with
  | nil => exact .nil
  | @cons a b l l' hab hrest ih =>
    obtain ⟨hnot, hnodup⟩ := List.nodup_cons.mp hnodup
    refine List.nodup_cons.mpr ⟨fun hb => ?_, ih hnodup⟩
    obtain ⟨i, hi, rfl⟩ := List.getElem_of_mem hb
    have hi' : i < l.length := hrest.length_eq ▸ hi
    have hrelated := hrest.get hi' hi
    exact hnot (hunique _ _ _ hab hrelated ▸ List.getElem_mem hi')

section

variable {op op1 op2 : Operation} {sources1 sources2 : List (Nat × Nat)} {columns : List Nat}

theorem getRegAndBit_eq_ok {source regAndBit : Nat × Nat}
    (h : getRegAndBit op source = .ok regAndBit) :
    op.src[source.1]? = some (.register regAndBit.1) ∧ source.2 = regAndBit.2 := by
  rw [getRegAndBit] at h
  split at h
  · rename_i hsrc
    rw [← Except.ok.inj h]
    exact ⟨hsrc, rfl⟩
  · exact nomatch h

/-- Different sources of a column look at different bits. -/
theorem CanonicalLut.getRegAndBit_injective {entries : List LutEntry}
    (h : CanonicalLut op entries) {source source' regAndBit : Nat × Nat}
    (hbit : getRegAndBit op source = .ok regAndBit)
    (hbit' : getRegAndBit op source' = .ok regAndBit) : source = source' := by
  obtain ⟨hsrc, hsnd⟩ := getRegAndBit_eq_ok hbit
  obtain ⟨hsrc', hsnd'⟩ := getRegAndBit_eq_ok hbit'
  rw [h.getElem?] at hsrc hsrc'
  have hlt := (List.getElem?_eq_some_iff.mp hsrc).1
  refine Prod.ext ?_ (hsnd.trans hsnd'.symm)
  exact (List.getElem?_inj hlt h.reads_nodup).mp (hsrc.trans hsrc'.symm)

/-- A column of the second operation looks at the given bit. -/
def LooksAt (op : Operation) (sources : List (Nat × Nat)) (column : Nat)
    (regAndBit : Nat × Nat) : Prop :=
  ∃ source, sources[column]? = some source ∧ getRegAndBit op source = .ok regAndBit

theorem findColumn_spec {regAndBit : Nat × Nat} {column : Nat}
    (h : findColumn op2 regAndBit sources2 = .ok (some column)) :
    LooksAt op2 sources2 column regAndBit := by
  have hinvariant := foldlM_preserves
    (fun found => ∀ column, found = some column → LooksAt op2 sources2 column regAndBit)
    (fun p hp found found' hfound hround column hcolumn => ?_)
    (fun column hnone => ?_) h
  · exact hinvariant column rfl
  · rw [bind_eq_ok_iff] at hround
    obtain ⟨regAndBit2, hbit, hround⟩ := hround
    split at hround
    · rename_i heq
      rw [bind_eq_ok_iff] at hround
      obtain ⟨-, -, hround⟩ := hround
      obtain rfl := Except.ok.inj hround
      obtain rfl := Option.some.inj hcolumn
      exact ⟨p.1, List.mem_zipIdx_iff_getElem?.mp hp, heq ▸ hbit⟩
    · obtain rfl := Except.ok.inj hround
      exact hfound column hcolumn
  · exact nomatch hnone

/-- Each column of the first operation has one of the second that looks at the same bit. -/
theorem operandMap_spec (h : operandMap op1 op2 sources2 sources1 = .ok (some columns)) :
    List.Forall₂ (fun source column => ∃ regAndBit, getRegAndBit op1 source = .ok regAndBit ∧
      LooksAt op2 sources2 column regAndBit) sources1 columns := by
  induction sources1 generalizing columns with
  | nil =>
    obtain rfl := Option.some.inj (Except.ok.inj h)
    exact .nil
  | cons source sources1 ih =>
    simp only [operandMap, bind_eq_ok_iff] at h
    obtain ⟨regAndBit, hbit, found, hfound, h⟩ := h
    cases found with
    | none => exact nomatch h
    | some column =>
      simp only [bind_eq_ok_iff] at h
      obtain ⟨rest, hrest, h⟩ := h
      obtain ⟨columns', hcolumns', rfl⟩ := Option.map_eq_some_iff.mp (Except.ok.inj h)
      subst hcolumns'
      exact .cons ⟨regAndBit, hbit, findColumn_spec hfound⟩ (ih hrest)

/-- Different columns look at different bits, so that every column of the second operation
    is the equivalent of one of the first. -/
theorem operandMap_surjective {entries : List LutEntry} (hcanonical : CanonicalLut op1 entries)
    (hnodup : sources1.Nodup) (hlength : sources1.length = sources2.length)
    (h : operandMap op1 op2 sources2 sources1 = .ok (some columns)) {column : Nat}
    (hcolumn : column < sources2.length) : column ∈ columns := by
  have hspec := operandMap_spec h
  have hcolumns : columns.Nodup := by
    refine nodup_of_forall₂ hspec (fun source source' column h h' => ?_) hnodup
    obtain ⟨regAndBit, hbit, source2, hsource2, hbit2⟩ := h
    obtain ⟨regAndBit', hbit', source2', hsource2', hbit2'⟩ := h'
    rw [hsource2] at hsource2'
    obtain rfl := Option.some.inj hsource2'
    rw [hbit2] at hbit2'
    obtain rfl := Except.ok.inj hbit2'
    exact hcanonical.getRegAndBit_injective hbit hbit'
  have hsub : columns ⊆ List.range sources2.length := by
    intro c hc
    obtain ⟨i, hi, rfl⟩ := List.getElem_of_mem hc
    obtain ⟨-, -, source2, hsource2, -⟩ := hspec.get (by rw [hspec.length_eq]; exact hi) hi
    exact List.mem_range.mpr (List.getElem?_eq_some_iff.mp hsource2).1
  have hperm : columns.Perm (List.range sources2.length) := by
    refine (List.subperm_of_subset hcolumns hsub).perm_of_length_le ?_
    rw [List.length_range, ← hlength, hspec.length_eq]
  exact hperm.mem_iff.mpr (List.mem_range.mpr hcolumn)

/-- The value of a register that is a source. -/
def registerLiteral {W : Type} (m : Machine W) (table : RegisterTable) (σ : State W) (r : Nat) :
    Literal :=
  let value := if table.isLocal r then σ.locals r else m.readRegister σ.world r
  ⟨value % 2 ^ (table.desc r).width, (table.desc r).width⟩

theorem CanonicalLut.values {entries : List LutEntry} (h : CanonicalLut op entries) {W : Type}
    (m : Machine W) (table : RegisterTable) (σ : State W) :
    (evalSources m table σ op).mapM Value.literal? =
      some (op.reads.map (registerLiteral m table σ)) := by
  rw [evalSources, h.src_eq]
  generalize op.reads = reads
  induction reads with
  | nil => rfl
  | cons r reads ih =>
    rw [List.map_cons, List.map_cons, List.mapM_cons, ih]
    rfl

theorem CanonicalLut.selectedBit_eq {entries : List LutEntry} (h : CanonicalLut op entries)
    (value : Nat → Literal) {source regAndBit : Nat × Nat}
    (hbit : getRegAndBit op source = .ok regAndBit) :
    selectedBit (op.reads.map value) source = (value regAndBit.1).value.testBit regAndBit.2 := by
  obtain ⟨hsrc, hsnd⟩ := getRegAndBit_eq_ok hbit
  rw [h.getElem?] at hsrc
  rw [selectedBit, List.getD_eq_getElem?_getD, List.getElem?_map, hsrc, hsnd]
  rfl

variable {le1 le2 : LutEntry} {entries1 entries2 : List LutEntry}

theorem lutEntriesProduceSameResult_eq_true
    (h : lutEntriesProduceSameResult op1 op2 (le1, le2) = .ok true) :
    le1.sources.length = le2.sources.length ∧
      ∃ columns, operandMap op1 op2 le2.sources le1.sources = .ok (some columns) ∧
        ∀ row < 2 ^ le1.sources.length,
          le1.table.testBit row = le2.table.testBit (truthTableRow2 columns row) := by
  rw [lutEntriesProduceSameResult] at h
  split at h
  · exact nomatch h
  · rename_i hlength
    simp only [bind_eq_ok_iff] at h
    obtain ⟨-, -, found, hfound, h⟩ := h
    cases found with
    | none => exact nomatch h
    | some columns =>
      refine ⟨not_not.mp hlength, columns, hfound, fun row hrow => ?_⟩
      exact beq_iff_eq.mp (List.all_eq_true.mp (Except.ok.inj h) row (List.mem_range.mpr hrow))

/-- The row that the sources of the first operation select stands for the row that those of
    the second one select. -/
theorem truthTableRow2_selectedRow
    (hcanonical1 : CanonicalLut op1 entries1) (hcanonical2 : CanonicalLut op2 entries2)
    (hnodup : sources1.Nodup) (hlength : sources1.length = sources2.length)
    (h : operandMap op1 op2 sources2 sources1 = .ok (some columns)) (value : Nat → Literal) :
    truthTableRow2 columns (selectedRow (op1.reads.map value) sources1) =
      selectedRow (op2.reads.map value) sources2 := by
  have hspec := operandMap_spec h
  -- A column and its equivalent look at the same bit
  have hsame : ∀ {i column : Nat}, columns[i]? = some column →
      sources1[i]?.any (selectedBit (op1.reads.map value)) =
        sources2[column]?.any (selectedBit (op2.reads.map value)) := by
    intro i column hi
    obtain ⟨hlt, rfl⟩ := List.getElem?_eq_some_iff.mp hi
    have hlt1 : i < sources1.length := hspec.length_eq ▸ hlt
    obtain ⟨regAndBit, hbit, source2, hsource2, hbit2⟩ := hspec.get hlt1 hlt
    simp only [List.get_eq_getElem] at hbit hsource2
    rw [hsource2, List.getElem?_eq_getElem hlt1, Option.any_some, Option.any_some,
      hcanonical1.selectedBit_eq value hbit, hcanonical2.selectedBit_eq value hbit2]
  refine Nat.eq_of_testBit_eq fun column => ?_
  rw [truthTableRow2, testBit_foldl_lor columns.zipIdx
    (fun p => (selectedRow (op1.reads.map value) sources1).testBit p.2) (fun p => p.1),
    Nat.zero_testBit, Bool.false_or, testBit_selectedRow, Bool.eq_iff_iff, List.any_eq_true]
  simp only [testBit_selectedRow, Bool.and_eq_true, beq_iff_eq]
  constructor
  · rintro ⟨⟨column', i⟩, hmem, hbit, rfl⟩
    rwa [hsame (List.mem_zipIdx_iff_getElem?.mp hmem)] at hbit
  · intro hbit
    have hcolumn : column < sources2.length := by
      by_contra hge
      rw [List.getElem?_eq_none (Nat.le_of_not_lt hge)] at hbit
      exact nomatch hbit
    have hmem := operandMap_surjective hcanonical1 hnodup hlength h hcolumn
    obtain ⟨i, hi⟩ := List.getElem?_of_mem hmem
    refine ⟨(column, i), List.mem_zipIdx_iff_getElem?.mpr hi, ?_, rfl⟩
    rwa [hsame hi]

/-- Entries that are found equal give the same bit. -/
theorem lutEntriesProduceSameResult_evaluate (hcanonical1 : CanonicalLut op1 entries1)
    (hcanonical2 : CanonicalLut op2 entries2) (hmem : le1 ∈ entries1)
    (h : lutEntriesProduceSameResult op1 op2 (le1, le2) = .ok true) (value : Nat → Literal) :
    le1.evaluate (op1.reads.map value) = le2.evaluate (op2.reads.map value) := by
  obtain ⟨hlength, columns, hcolumns, hrows⟩ := lutEntriesProduceSameResult_eq_true h
  rw [evaluate_eq, evaluate_eq, hrows _ (selectedRow_lt _ _),
    truthTableRow2_selectedRow hcanonical1 hcanonical2 (hcanonical1.columns_nodup _ hmem)
      hlength hcolumns value]

theorem lutOperationsProduceSameResult_eq_true
    (h : lutOperationsProduceSameResult op1 op2 entries1 entries2 = .ok true) :
    op1.signExtendSourceMask = 0 ∧ op2.signExtendSourceMask = 0 ∧
      entries1.length = entries2.length ∧
      ∀ entries ∈ entries1.zip entries2, lutEntriesProduceSameResult op1 op2 entries = .ok true := by
  simp only [lutOperationsProduceSameResult, bind_eq_ok_iff] at h
  obtain ⟨_, hmask1, _, hmask2, h⟩ := h
  split at h
  · exact nomatch h
  · rename_i hlength
    exact ⟨of_decide_eq_true (of_assert hmask1), of_decide_eq_true (of_assert hmask2),
      not_not.mp hlength, allM_eq_true h⟩

/-- Lookup tables that are found equal give the same bits. -/
theorem lutOperationsProduceSameResult_lutBits (hcanonical1 : CanonicalLut op1 entries1)
    (hcanonical2 : CanonicalLut op2 entries2)
    (h : lutOperationsProduceSameResult op1 op2 entries1 entries2 = .ok true)
    (value : Nat → Literal) :
    lutBits entries1 (op1.reads.map value) = lutBits entries2 (op2.reads.map value) := by
  obtain ⟨-, -, hlength, hall⟩ := lutOperationsProduceSameResult_eq_true h
  refine Nat.eq_of_testBit_eq fun i => ?_
  rw [lutBits, lutBits, testBit_foldl_zipIdx entries1 (·.evaluate (op1.reads.map value)),
    testBit_foldl_zipIdx entries2 (·.evaluate (op2.reads.map value))]
  by_cases hi : i < entries1.length
  · have hi2 : i < entries2.length := hlength ▸ hi
    rw [List.getElem?_eq_getElem hi, List.getElem?_eq_getElem hi2, Option.any_some,
      Option.any_some]
    exact lutEntriesProduceSameResult_evaluate hcanonical1 hcanonical2 (List.getElem_mem hi)
      (hall _ (getElem_mem_zip hi hi2)) value
  · rw [List.getElem?_eq_none (by omega), List.getElem?_eq_none (by omega)]
    rfl

end

/-! ## Operations with the same result -/

theorem sourcesMatch_eq_true {src1 src2 : SourceOperand}
    (h : sourcesMatch (src1, src2) = .ok true) : src1 = src2 := by
  cases src1 <;> cases src2 <;> simp_all [sourcesMatch]

theorem flagsMatch_eq_true {opcode1 opcode2 : Opcode} (h : flagsMatch opcode1 opcode2 = .ok true) :
    opcode1 = opcode2 := by
  unfold flagsMatch at h
  split at h <;> simp_all

theorem zip_allM_sourcesMatch {src1 : List SourceOperand} :
    ∀ {src2 : List SourceOperand}, src1.length = src2.length →
      (src1.zip src2).allM sourcesMatch = .ok true → src1 = src2 := by
  intro src2 hlength h
  refine List.ext_getElem hlength fun i hi hi2 => ?_
  exact sourcesMatch_eq_true (allM_eq_true h _ (getElem_mem_zip hi hi2))

/-- What it means for operations to be found equal. -/
theorem operationsProduceSameResult_eq_true {table : RegisterTable} {op1 op2 : Operation}
    (h : operationsProduceSameResult table op1 op2 = .ok true) :
    op1.dst.map (·.width table) = op2.dst.map (·.width table) ∧
      ((∃ entries1 entries2, op1.opcode = .lut entries1 ∧ op2.opcode = .lut entries2 ∧
          op1.src.length = op2.src.length ∧
          lutOperationsProduceSameResult op1 op2 entries1 entries2 = .ok true) ∨
        (op1.opcode = op2.opcode ∧ op1.signExtendSourceMask = op2.signExtendSourceMask ∧
          op1.src = op2.src)) := by
  unfold operationsProduceSameResult at h
  split at h
  · exact nomatch h
  split at h
  · exact nomatch h
  rename_i hlength
  split at h
  · exact nomatch h
  split at h
  · exact nomatch h
  rename_i hwidths
  refine ⟨not_not.mp hwidths, ?_⟩
  split at h
  · rename_i entries1 entries2 hlut1 hlut2
    exact .inl ⟨entries1, entries2, hlut1, hlut2, not_not.mp hlength, h⟩
  · split at h
    · exact nomatch h
    rename_i hmask
    rw [bind_eq_ok_iff] at h
    obtain ⟨flags, hflags, h⟩ := h
    cases flags with
    | false => exact nomatch h
    | true =>
      exact .inr ⟨flagsMatch_eq_true hflags, not_not.mp hmask,
        zip_allM_sourcesMatch (not_not.mp hlength) h⟩

/-- Lookup tables that are to be compared are in canonical form. -/
def HasCanonicalLut (op : Operation) : Prop :=
  ∀ entries, op.opcode = .lut entries → CanonicalLut op entries

section

variable {W : Type} {m : CombinationalMachine W} {table : RegisterTable}

/-- Operations that are found equal compute the same in every state. -/
theorem operationsProduceSameResult_resultAt {op1 op2 : Operation} {dst1 dst2 : Nat}
    (hpart1 : TakesPart table op1 dst1) (hpart2 : TakesPart table op2 dst2)
    (hlut1 : HasCanonicalLut op1) (hlut2 : HasCanonicalLut op2)
    (h : operationsProduceSameResult table op1 op2 = .ok true) (σ : State W) :
    (table.desc dst1).width = (table.desc dst2).width ∧
      resultAt m table σ op1 = resultAt m table σ op2 := by
  obtain ⟨hwidths, hcases⟩ := operationsProduceSameResult_eq_true h
  have hwidth : (table.desc dst1).width = (table.desc dst2).width := by
    rw [hpart1.dst_eq, hpart2.dst_eq] at hwidths
    exact List.singleton_inj.mp hwidths
  refine ⟨hwidth, ?_⟩
  rw [resultAt, resultAt, hpart1.targets, hpart2.targets, hwidth]
  rcases hcases with ⟨entries1, entries2, hop1, hop2, -, hsame⟩ | ⟨hopcode, hmask, hsrc⟩
  · -- The reference arithmetic has a result for every lookup table
    have hcanonical1 := hlut1 entries1 hop1
    have hcanonical2 := hlut2 entries2 hop2
    have hbits := lutOperationsProduceSameResult_lutBits hcanonical1 hcanonical2 hsame
      (registerLiteral m.toMachine table σ)
    simp only [CombinationalMachine.result, OpInfo.pureResult?, hcanonical1.values,
      hcanonical2.values, hop1, hop2, pureResult, hbits, Option.bind_eq_bind, Option.bind_some]
  · rw [hopcode, hmask, evalSources, evalSources, hsrc]

end

/-! ## Hashes -/

theorem sortOperands_registers (reads : List Nat) :
    sortOperands (reads.map .register) = (reads.insertionSort (· ≤ ·)).map .register := by
  refine (List.map_insertionSort _ _ _ _ fun a _ b _ => ?_).symm
  rw [← not_lt, ← not_lt]
  simp only [sortKey, List.cons_lt_cons_iff, Nat.lt_irrefl, List.not_lt_nil, true_and, false_or,
    and_false, or_false]

section

variable {op1 op2 : Operation} {entries1 entries2 : List LutEntry}

/-- Lookup tables that are found equal have the same sources. -/
theorem lutOperationsProduceSameResult_reads (hcanonical1 : CanonicalLut op1 entries1)
    (hcanonical2 : CanonicalLut op2 entries2) (hlength : op1.src.length = op2.src.length)
    (h : lutOperationsProduceSameResult op1 op2 entries1 entries2 = .ok true) :
    op1.reads.Perm op2.reads := by
  obtain ⟨-, -, hentries, hall⟩ := lutOperationsProduceSameResult_eq_true h
  have hsub : op1.reads ⊆ op2.reads := by
    intro r hr
    obtain ⟨i, hi⟩ := List.getElem?_of_mem hr
    have hsrc := hcanonical1.getElem?.mpr hi
    obtain ⟨le1, hle1, source, hsource, rfl⟩ :=
      hcanonical1.used i (List.getElem?_eq_some_iff.mp hsrc).1
    -- Some column looks at a bit of the register, and so does its equivalent
    obtain ⟨n, hn, rfl⟩ := List.getElem_of_mem hle1
    have hn2 : n < entries2.length := hentries ▸ hn
    obtain ⟨-, columns, hcolumns, -⟩ :=
      lutEntriesProduceSameResult_eq_true (hall _ (getElem_mem_zip hn hn2))
    have hspec := operandMap_spec hcolumns
    obtain ⟨c, hc, hcsource⟩ := List.getElem_of_mem hsource
    obtain ⟨regAndBit, hbit, source2, hsource2, hbit2⟩ :=
      hspec.get hc (hspec.length_eq ▸ hc)
    simp only [List.get_eq_getElem, hcsource] at hbit
    obtain ⟨hreg, -⟩ := getRegAndBit_eq_ok hbit
    rw [hsrc] at hreg
    obtain ⟨hreg2, -⟩ := getRegAndBit_eq_ok hbit2
    rw [← SourceOperand.register.inj (Option.some.inj hreg), hcanonical2.getElem?] at hreg2
    exact List.mem_of_getElem? hreg2
  refine (List.subperm_of_subset hcanonical1.reads_nodup hsub).perm_of_length_le ?_
  rw [hcanonical1.src_eq, hcanonical2.src_eq, List.length_map, List.length_map] at hlength
  exact hlength.ge

theorem lutOperationsProduceSameResult_lengths
    (h : lutOperationsProduceSameResult op1 op2 entries1 entries2 = .ok true) :
    entries1.map (·.sources.length) = entries2.map (·.sources.length) := by
  obtain ⟨-, -, hentries, hall⟩ := lutOperationsProduceSameResult_eq_true h
  refine List.ext_getElem (by rw [List.length_map, List.length_map, hentries]) fun n hn hn2 => ?_
  rw [List.getElem_map, List.getElem_map]
  rw [List.length_map] at hn hn2
  exact (lutEntriesProduceSameResult_eq_true (hall _ (getElem_mem_zip hn hn2))).1

/-- Lookup tables with the same sources, and entries of the same sizes, have the same hash. -/
theorem operationHash_of_perm (hash : HashCombine) (hop1 : op1.opcode = .lut entries1)
    (hop2 : op2.opcode = .lut entries2) (hcanonical1 : CanonicalLut op1 entries1)
    (hcanonical2 : CanonicalLut op2 entries2) (hperm : op1.reads.Perm op2.reads)
    (hlengths : entries1.map (·.sources.length) = entries2.map (·.sources.length)) :
    operationHash hash op1 = operationHash hash op2 := by
  have hsorted : sortOperands op1.src = sortOperands op2.src := by
    have hsort : op1.reads.insertionSort (· ≤ ·) = op2.reads.insertionSort (· ≤ ·) := by
      refine List.Perm.eq_of_pairwise' (List.pairwise_insertionSort _ _)
        (List.pairwise_insertionSort _ _) ?_
      exact (List.perm_insertionSort _ _).trans (hperm.trans (List.perm_insertionSort _ _).symm)
    rw [hcanonical1.src_eq, hcanonical2.src_eq, sortOperands_registers, sortOperands_registers,
      hsort]
  have hfold : ∀ (entries : List LutEntry) (result : Nat),
      entries.foldl (fun result entry => hash.size result entry.sources.length) result =
        (entries.map (·.sources.length)).foldl hash.size result := by
    intro entries result
    rw [List.foldl_map]
  simp only [operationHash, hop1, hop2, hsorted, hfold, hlengths]
  rfl

/-- Operations that are found equal have the same hash. -/
theorem operationHash_eq (hash : HashCombine) {table : RegisterTable}
    (hlut1 : HasCanonicalLut op1) (hlut2 : HasCanonicalLut op2)
    (h : operationsProduceSameResult table op1 op2 = .ok true) :
    operationHash hash op1 = operationHash hash op2 := by
  obtain ⟨-, hcases⟩ := operationsProduceSameResult_eq_true h
  rcases hcases with ⟨entries1, entries2, hop1, hop2, hlength, hsame⟩ | ⟨hopcode, -, hsrc⟩
  · have hcanonical1 := hlut1 entries1 hop1
    have hcanonical2 := hlut2 entries2 hop2
    exact operationHash_of_perm hash hop1 hop2 hcanonical1 hcanonical2
      (lutOperationsProduceSameResult_reads hcanonical1 hcanonical2 hlength hsame)
      (lutOperationsProduceSameResult_lengths hsame)
  · unfold operationHash
    rw [← hopcode, ← hsrc]

end

/-! ## Blocks -/

/-- A block after renaming: a local register is written at one place, and only read behind
    it. -/
structure RenamedBlock (table : RegisterTable) (ops : List Operation) : Prop where
  writtenOnce : ∀ {i j : Nat} {op op' : Operation} {r : Nat}, ops[i]? = some op → ops[j]? = some op' →
    table.isLocal r = true → r ∈ op.writes → r ∈ op'.writes → i = j
  readBehindWrite : ∀ {i j : Nat} {op op' : Operation} {r : Nat}, ops[i]? = some op → ops[j]? = some op' →
    table.isLocal r = true → r ∈ op.reads → r ∈ op'.writes → j < i

/-- An operation that later ones are compared with. -/
structure Candidate (table : RegisterTable) (op : Operation) (dst : Nat) : Prop
    extends TakesPart table op dst where
  noFifo : ∀ f, SourceOperand.fifo f ∉ op.src
  canonical : HasCanonicalLut op

/-- What stands in the place of operation `i` of a block: the operation itself, or a move of
    the result of an earlier one that was found equal. -/
def StandsFor (table : RegisterTable) (ops : List Operation) (i : Nat) (op op' : Operation) :
    Prop :=
  op' = op ∨ ∃ j < i, ∃ earlier result dst, ops[j]? = some earlier ∧
    Candidate table earlier result ∧ Candidate table op dst ∧
    operationsProduceSameResult table op earlier = .ok true ∧ op' = moveOfResult result dst

section

variable {table : RegisterTable} {ops : List Operation}

section

variable {W : Type} {m : CombinationalMachine W}

/-- The result of an operation is still there later. -/
theorem RenamedBlock.result_kept (hblock : RenamedBlock table ops) {i j result : Nat}
    {earlier : Operation} (hji : j < i) (hj : ops[j]? = some earlier)
    (hcandidate : Candidate table earlier result) (σ : State W) :
    (execOperations m.toMachine table σ (ops.take i)).locals result =
      (execOperations m.toMachine table σ (ops.take (j + 1))).locals result := by
  have hwrites : result ∈ earlier.writes := by
    rw [Operation.writes, hcandidate.dst_eq]
    exact List.mem_singleton.mpr rfl
  refine execOperations_take_of_not_written hji fun k op hk _ hop hmem => ?_
  have heq := hblock.writtenOnce hj hop hcandidate.local_dst hwrites hmem
  omega

/-- The result of an operation is what the operation would compute later. -/
theorem RenamedBlock.result_later (hblock : RenamedBlock table ops) {i j result : Nat}
    {earlier : Operation} (hji : j < i) (hj : ops[j]? = some earlier)
    (hcandidate : Candidate table earlier result) (σ : State W) :
    (execOperations m.toMachine table σ (ops.take i)).locals result =
      resultAt m table (execOperations m.toMachine table σ (ops.take i)) earlier %
        2 ^ (table.desc result).width := by
  have hsources : evalSources m.toMachine table (execOperations m.toMachine table σ (ops.take i))
      earlier = evalSources m.toMachine table
        (execOperations m.toMachine table σ (ops.take j)) earlier := by
    refine hcandidate.evalSources_congr hcandidate.noFifo fun r hr => ?_
    refine execOperations_take_of_not_written (Nat.le_of_lt hji) fun k op hk _ hop hmem => ?_
    have hlt := hblock.readBehindWrite hj hop (hcandidate.local_src r hr) hr hmem
    omega
  rw [hblock.result_kept hji hj hcandidate, execOperations_take_succ hj, hcandidate.exec, resultAt,
    resultAt, hsources]
  exact Function.update_self ..

/-- What stands in the place of an operation does the same. -/
theorem StandsFor.exec (hblock : RenamedBlock table ops) {i : Nat} {op op' : Operation}
    (h : StandsFor table ops i op op') (σ : State W) :
    execOperation m.toMachine table (execOperations m.toMachine table σ (ops.take i)) op' =
      execOperation m.toMachine table (execOperations m.toMachine table σ (ops.take i)) op := by
  rcases h with rfl | ⟨j, hji, earlier, result, dst, hj, hearlier, hop, hsame, rfl⟩
  · rfl
  · obtain ⟨hwidth, hresult⟩ := operationsProduceSameResult_resultAt hop.toTakesPart
      hearlier.toTakesPart hop.canonical hearlier.canonical hsame
      (execOperations m.toMachine table σ (ops.take i))
    rw [moveOfResult_exec hearlier.local_dst hop.local_dst hwidth.symm, hop.exec,
      hblock.result_later hji hj hearlier, hresult, hwidth, Nat.mod_mod]

/-- A block whose operations are stood for does the same, up to every position. -/
theorem exec_of_standsFor (hblock : RenamedBlock table ops) {ops' : List Operation}
    (h : List.Forall₂ (fun p p' => StandsFor table ops p.2 p.1 p') ops.zipIdx ops')
    (σ : State W) (i : Nat) :
    execOperations m.toMachine table σ (ops'.take i) =
      execOperations m.toMachine table σ (ops.take i) := by
  have hlength : ops.length = ops'.length := by
    rw [← h.length_eq, List.length_zipIdx]
  induction i with
  | zero => rfl
  | succ i ih =>
    by_cases hi : i < ops.length
    · have hi' : i < ops'.length := hlength ▸ hi
      have hzip : i < ops.zipIdx.length := by rwa [List.length_zipIdx]
      have hstands := h.get hzip hi'
      simp only [List.get_eq_getElem, List.getElem_zipIdx, Nat.zero_add] at hstands
      rw [execOperations_take_succ (List.getElem?_eq_getElem hi'), ih,
        execOperations_take_succ (List.getElem?_eq_getElem hi)]
      exact hstands.exec hblock σ
    · rw [List.take_of_length_le (by omega), List.take_of_length_le (by omega)] at ih ⊢
      exact ih

end

/-! ## The pass -/

/-- The operations of the map stand before a position of the block. -/
def Known (table : RegisterTable) (ops : List Operation) (i : Nat)
    (operationMap : OperationMap) : Prop :=
  ∀ opHash, ∀ earlier ∈ operationMap.getD opHash [], ∃ j < i, ∃ result,
    ops[j]? = some earlier ∧ Candidate table earlier result

theorem Known.later {i i' : Nat} {operationMap : OperationMap}
    (h : Known table ops i operationMap) (hle : i ≤ i') : Known table ops i' operationMap := by
  intro opHash earlier hmem
  obtain ⟨j, hj, hrest⟩ := h opHash earlier hmem
  exact ⟨j, by omega, hrest⟩

theorem Known.insert {i opHash dst : Nat} {operationMap : OperationMap} {op : Operation}
    (h : Known table ops i operationMap) (hop : ops[i]? = some op)
    (hcandidate : Candidate table op dst) :
    Known table ops (i + 1)
      (operationMap.insert opHash (operationMap.getD opHash [] ++ [op])) := by
  intro opHash' earlier hmem
  rw [getD_insert] at hmem
  split at hmem
  · rcases List.mem_append.mp hmem with hmem | hmem
    · exact (h.later (Nat.le_succ i)) opHash earlier hmem
    · rw [List.mem_singleton.mp hmem]
      exact ⟨i, Nat.lt_succ_self i, dst, hop, hcandidate⟩
  · exact (h.later (Nat.le_succ i)) opHash' earlier hmem

section

variable {hash : HashCombine} {transformLuts didChange : Bool} {op op' : Operation}
  {operationMap operationMap' : OperationMap} {i : Nat}

theorem eliminateOperation_spec (hknown : Known table ops i operationMap)
    (hop : ops[i]? = some op) (hfifo : ∀ f, SourceOperand.fifo f ∉ op.src)
    (hlut : transformLuts = true → HasCanonicalLut op)
    (hok : eliminateOperation hash table transformLuts operationMap op =
      .ok (op', operationMap', didChange)) :
    StandsFor table ops i op op' ∧ Known table ops (i + 1) operationMap' := by
  have hsame : Known table ops (i + 1) operationMap := hknown.later (Nat.le_succ i)
  unfold eliminateOperation at hok
  split at hok
  · rename_i dst hdst
    rw [bind_eq_ok_iff] at hok
    obtain ⟨supported, hsupported, hok⟩ := hok
    cases supported with
    | false =>
      obtain ⟨rfl, hrest⟩ := Prod.mk.inj (Except.ok.inj hok)
      exact ⟨.inl rfl, (Prod.mk.inj hrest).1 ▸ hsame⟩
    | true =>
      have hcandidate : Candidate table op dst := by
        refine ⟨takesPart_of_support hdst hsupported, hfifo, fun entries hentries => ?_⟩
        exact hlut ((doesOpSupportCse_spec hsupported).2.2 entries hentries) entries hentries
      simp only [Bool.not_true, Bool.false_eq_true, if_false, bind_eq_ok_iff] at hok
      obtain ⟨opHash, -, found, hfound, hok⟩ := hok
      cases found with
      | none =>
        obtain ⟨rfl, hrest⟩ := Prod.mk.inj (Except.ok.inj hok)
        exact ⟨.inl rfl, (Prod.mk.inj hrest).1 ▸ hknown.insert hop hcandidate⟩
      | some earlier =>
        obtain ⟨hmem, hequal⟩ := findM?_eq_some hfound
        obtain ⟨j, hj, result, hearlier, hcandidate'⟩ := hknown opHash earlier hmem
        simp only [hcandidate'.dst_eq] at hok
        obtain ⟨rfl, hrest⟩ := Prod.mk.inj (Except.ok.inj hok)
        exact ⟨.inr ⟨j, hj, earlier, result, dst, hearlier, hcandidate', hcandidate, hequal, rfl⟩,
          (Prod.mk.inj hrest).1 ▸ hsame⟩
  · obtain ⟨rfl, hrest⟩ := Prod.mk.inj (Except.ok.inj hok)
    exact ⟨.inl rfl, (Prod.mk.inj hrest).1 ▸ hsame⟩

theorem eliminateOperations_spec {body : List Operation} :
    ∀ {operationMap : OperationMap} {i : Nat} {body' : List Operation} {didChange : Bool},
      Known table ops i operationMap → (∀ n op, body[n]? = some op → ops[i + n]? = some op) →
      (∀ op ∈ body, ∀ f, SourceOperand.fifo f ∉ op.src) →
      (transformLuts = true → ∀ op ∈ body, HasCanonicalLut op) →
      eliminateOperations hash table transformLuts operationMap body = .ok (body', didChange) →
      List.Forall₂ (fun p p' => StandsFor table ops p.2 p.1 p') (body.zipIdx i) body' := by
  induction body with
  | nil =>
    intro operationMap i body' didChange _ _ _ _ hok
    obtain ⟨rfl, -⟩ := Prod.mk.inj (Except.ok.inj hok)
    exact .nil
  | cons op body ih =>
    intro operationMap i body' didChange hknown hposition hfifo hlut hok
    simp only [eliminateOperations, bind_eq_ok_iff] at hok
    obtain ⟨⟨op', operationMap', didChange₁⟩, hhead, ⟨body₁, didChange₂⟩, hrest, hok⟩ := hok
    obtain ⟨rfl, -⟩ := Prod.mk.inj (Except.ok.inj hok)
    obtain ⟨hstands, hknown'⟩ := eliminateOperation_spec hknown (hposition 0 op rfl)
      (hfifo op List.mem_cons_self) (fun h => hlut h op List.mem_cons_self) hhead
    refine .cons hstands (ih hknown' (fun n op hn => ?_) (fun op hop => ?_) (fun h op hop => ?_)
      hrest)
    · rw [Nat.add_right_comm]
      exact hposition (n + 1) op hn
    · exact hfifo op (List.mem_cons_of_mem _ hop)
    · exact hlut h op (List.mem_cons_of_mem _ hop)

end

theorem standsFor_self (ops : List Operation) (i : Nat) {rest : List Operation} :
    List.Forall₂ (fun p p' => StandsFor table ops p.2 p.1 p') (rest.zipIdx i) rest := by
  induction rest generalizing i with
  | nil => exact .nil
  | cons op rest ih => exact .cons (.inl rfl) (ih (i + 1))

end

/-- The functions that the pass gets: local registers are renamed, FIFOs are only read by
    the operations that `AddPipelineRegisters` adds later, and if lookup tables take part,
    `FixupLutOps` has run. -/
structure EliminationInput (table : RegisterTable) (transformLuts : Bool) (f : Function) :
    Prop where
  renamed : ∀ b, RenamedBlock table (f.operationsOf b)
  noFifo : ∀ b, ∀ op ∈ f.bodyOf b, ∀ fifo, SourceOperand.fifo fifo ∉ op.src
  canonical : transformLuts = true → ∀ b, ∀ op ∈ f.bodyOf b, HasCanonicalLut op

section

variable {table : RegisterTable} {transformLuts didChange : Bool} {f f' : Function}
  {hash : HashCombine}

theorem commonSubexpressionElimination_standsFor (hf : EliminationInput table transformLuts f)
    (hok : commonSubexpressionElimination hash table transformLuts f = .ok (f', didChange))
    (b : Nat) :
    List.Forall₂ (fun p p' => StandsFor table (f.operationsOf b) p.2 p.1 p')
      (f.operationsOf b).zipIdx (f'.operationsOf b) := by
  rw [commonSubexpressionElimination, bind_eq_ok_iff] at hok
  obtain ⟨blocks, hblocks, hok⟩ := hok
  obtain ⟨rfl, -⟩ := Prod.mk.inj (Except.ok.inj hok)
  have hrelated := mapM_related hblocks
  cases hb : f.basicBlocks[b]? with
  | none =>
    have hge : blocks.length ≤ b := by
      rw [← hrelated.length_eq]
      exact List.getElem?_eq_none_iff.mp hb
    have hb' : (blocks.map Prod.fst)[b]? = none := by
      rw [List.getElem?_eq_none_iff, List.length_map]
      exact hge
    simp only [Function.operationsOf, hb, hb']
    exact .nil
  | some basicBlock =>
    obtain ⟨hlt, rfl⟩ := List.getElem?_eq_some_iff.mp hb
    have hlt' : b < blocks.length := hrelated.length_eq ▸ hlt
    have hblock := hrelated.get hlt hlt'
    simp only [List.get_eq_getElem, eliminateInBlock, bind_eq_ok_iff] at hblock
    obtain ⟨⟨operations, changed⟩, hoperations, hblock⟩ := hblock
    have hb' : (blocks.map Prod.fst)[b]? = some { f.basicBlocks[b] with operations := operations } := by
      rw [List.getElem?_map, List.getElem?_eq_getElem hlt', ← Except.ok.inj hblock]
      rfl
    have hbody : f.bodyOf b = f.basicBlocks[b].operations := by
      rw [Function.bodyOf, hb]
    have hall : f.operationsOf b = f.basicBlocks[b].allOperations := by
      rw [Function.operationsOf, hb]
    have hall' : Function.operationsOf ⟨f.start, blocks.map Prod.fst⟩ b =
        f.basicBlocks[b].startConditionOperations ++ operations ++
          f.basicBlocks[b].stages.flatMap Stage.operations := by
      simp only [Function.operationsOf, hb']
      rfl
    -- Only the operations between the start conditions and the stages change
    rw [hall', hall]
    conv in List.zipIdx _ => rw [BasicBlock.allOperations, List.zipIdx_append, List.zipIdx_append]
    refine List.rel_append (List.rel_append (standsFor_self _ _) ?_) (standsFor_self _ _)
    refine eliminateOperations_spec (fun opHash earlier hmem => ?_) (fun n op hn => ?_)
      (hbody ▸ hf.noFifo b) (fun h => hbody ▸ hf.canonical h b) hoperations
    · rw [getD_of_none Std.ExtTreeMap.getElem?_empty] at hmem
      cases hmem
    · rw [BasicBlock.allOperations, List.append_assoc, Nat.zero_add,
        List.getElem?_append_right (Nat.le_add_right _ _), Nat.add_sub_cancel_left]
      rw [List.getElem?_append_left (List.getElem?_eq_some_iff.mp hn).1]
      exact hn

/-- An operation that the pass replaces becomes a move of the result of an earlier one, and on
    every execution of the block computes the same value; the state at every position of the
    block stays what it was; and operations that are found equal have the same hash. -/
theorem commonSubexpressionElimination_preserves (hf : EliminationInput table transformLuts f)
    (hok : commonSubexpressionElimination hash table transformLuts f = .ok (f', didChange)) :
    (∀ b i op op', (f.operationsOf b)[i]? = some op → (f'.operationsOf b)[i]? = some op' →
      op' = op ∨ ∃ j < i, ∃ earlier result dst, (f.operationsOf b)[j]? = some earlier ∧
        earlier.dst = [.register result] ∧ op.dst = [.register dst] ∧
        (table.desc result).width = (table.desc dst).width ∧ op' = moveOfResult result dst ∧
        ∀ {W : Type} (m : CombinationalMachine W) (σ : State W),
          (execOperations m.toMachine table σ ((f.operationsOf b).take (i + 1))).locals dst =
            (execOperations m.toMachine table σ ((f.operationsOf b).take (j + 1))).locals
              result) ∧
    (∀ {W : Type} (m : CombinationalMachine W) (σ : State W) b i,
      execOperations m.toMachine table σ ((f'.operationsOf b).take i) =
        execOperations m.toMachine table σ ((f.operationsOf b).take i)) ∧
    (∀ op1 op2, HasCanonicalLut op1 → HasCanonicalLut op2 →
      operationsProduceSameResult table op1 op2 = .ok true →
      operationHash hash op1 = operationHash hash op2) := by
  refine ⟨fun b i op op' hi hi' => ?_, fun m σ b i => ?_, fun op1 op2 hlut1 hlut2 h => ?_⟩
  · have hall := commonSubexpressionElimination_standsFor hf hok b
    obtain ⟨hlt, hop⟩ := List.getElem?_eq_some_iff.mp hi
    obtain ⟨hlt', hop'⟩ := List.getElem?_eq_some_iff.mp hi'
    have hzip : i < (f.operationsOf b).zipIdx.length := by rwa [List.length_zipIdx]
    have hstands := hall.get hzip hlt'
    simp only [List.get_eq_getElem, List.getElem_zipIdx, Nat.zero_add, hop, hop'] at hstands
    rcases hstands.imp_left id with rfl | ⟨j, hji, earlier, result, dst, hj, hearlier, hcandidate,
      hsame, heq⟩
    · exact .inl rfl
    · have hwidth : (table.desc dst).width = (table.desc result).width := by
        have hwidths := (operationsProduceSameResult_eq_true hsame).1
        rw [hcandidate.dst_eq, hearlier.dst_eq] at hwidths
        exact List.singleton_inj.mp hwidths
      refine .inr ⟨j, hji, earlier, result, dst, hj, hearlier.dst_eq, hcandidate.dst_eq,
        hwidth.symm, heq, fun m σ => ?_⟩
      -- The move that stands for the operation copies the value
      rw [execOperations_take_succ hi, ← hstands.exec (hf.renamed b) σ, heq,
        moveOfResult_exec hearlier.local_dst hcandidate.local_dst hwidth.symm]
      dsimp only
      rw [Function.update_self, ← (hf.renamed b).result_kept hji hj hearlier,
        (hf.renamed b).result_later hji hj hearlier, hwidth, Nat.mod_mod]
  · exact exec_of_standsFor (hf.renamed b) (commonSubexpressionElimination_standsFor hf hok b) σ i
  · exact operationHash_eq hash hlut1 hlut2 h

end

/-! ## A block with equal operations -/

/-- A sum twice, and a lookup table twice, the second time with its columns permuted. -/
def repeatedOperations : List Operation :=
  [{ opcode := .binaryOp .add, src := [.register 0, .register 1], dst := [.register 2] },
    { opcode := .lut [⟨[(0, 0), (1, 0)], 2⟩], src := [.register 0, .register 1],
      dst := [.register 3] },
    { opcode := .binaryOp .add, src := [.register 0, .register 1], dst := [.register 4] },
    { opcode := .lut [⟨[(0, 0), (1, 0)], 4⟩], src := [.register 1, .register 0],
      dst := [.register 5] }]

def repeatedTable : RegisterTable :=
  [⟨8, .local, false, false, none⟩, ⟨8, .local, false, false, none⟩,
    ⟨9, .local, false, false, none⟩, ⟨1, .local, false, false, none⟩,
    ⟨9, .local, false, false, none⟩, ⟨1, .local, false, false, none⟩]

def repeatedFunction : Function := ⟨0, [⟨[], repeatedOperations, []⟩]⟩

theorem repeatedOperations_at : ∀ {i : Nat} {op : Operation}, repeatedOperations[i]? = some op →
    op.writes = [i + 2] ∧ (∀ r ∈ op.reads, r < 2) ∧ (∀ f, SourceOperand.fifo f ∉ op.src) ∧
      HasCanonicalLut op
  | 0, _, rfl => ⟨rfl, by decide, by simp, fun _ h => nomatch h⟩
  | 1, _, rfl => by
    refine ⟨rfl, by decide, by simp, fun entries h => ?_⟩
    obtain rfl := Opcode.lut.inj h
    exact ⟨rfl, by decide, by decide, by decide⟩
  | 2, _, rfl => ⟨rfl, by decide, by simp, fun _ h => nomatch h⟩
  | 3, _, rfl => by
    refine ⟨rfl, by decide, by simp, fun entries h => ?_⟩
    obtain rfl := Opcode.lut.inj h
    exact ⟨rfl, by decide, by decide, by decide⟩

theorem repeatedFunction_mem {b : Nat} {op : Operation} (h : op ∈ repeatedFunction.bodyOf b) :
    ∃ i : Nat, repeatedOperations[i]? = some op := by
  cases b with
  | zero => exact List.getElem?_of_mem h
  | succ b => exact nomatch h

theorem repeatedFunction_renamed :
    ∀ b, RenamedBlock repeatedTable (repeatedFunction.operationsOf b)
  | 0 => by
    refine ⟨fun hi hj _ hr hr' => ?_, fun hi hj _ hr hr' => ?_⟩
    · rw [(repeatedOperations_at hi).1, List.mem_singleton] at hr
      rw [(repeatedOperations_at hj).1, List.mem_singleton] at hr'
      omega
    · have hlt := (repeatedOperations_at hi).2.1 _ hr
      rw [(repeatedOperations_at hj).1, List.mem_singleton] at hr'
      omega
  | _ + 1 => ⟨fun hi _ _ _ _ => (nomatch hi), fun hi _ _ _ _ => (nomatch hi)⟩

theorem repeatedFunction_input : EliminationInput repeatedTable true repeatedFunction where
  renamed := repeatedFunction_renamed
  noFifo b op hop := by
    obtain ⟨i, hi⟩ := repeatedFunction_mem hop
    exact (repeatedOperations_at hi).2.2.1
  canonical _ b op hop := by
    obtain ⟨i, hi⟩ := repeatedFunction_mem hop
    exact (repeatedOperations_at hi).2.2.2

def sumHash : HashCombine := ⟨(· + ·), (· + ·)⟩

/-- The second sum and the second lookup table become moves, and nothing changes. -/
theorem commonSubexpressionElimination_preserves_repeated :
    ∃ f', commonSubexpressionElimination sumHash repeatedTable true repeatedFunction =
        .ok (f', true) ∧
      (f'.operationsOf 0).map Operation.opcode =
        [.binaryOp .add, .lut [⟨[(0, 0), (1, 0)], 2⟩], .mov, .mov] ∧
      ∀ {W : Type} (m : CombinationalMachine W) (σ : State W) b i,
        execOperations m.toMachine repeatedTable σ ((f'.operationsOf b).take i) =
          execOperations m.toMachine repeatedTable σ
            ((repeatedFunction.operationsOf b).take i) := by
  have hok : commonSubexpressionElimination sumHash repeatedTable true repeatedFunction =
      .ok (_, true) := rfl
  exact ⟨_, hok, rfl, (commonSubexpressionElimination_preserves repeatedFunction_input hok).2.1⟩

end Kanagawa.Optimize
