/-
  Kanagawa.Optimize.LutFixup

  Literal sources of lookup tables (`optimize_lut.cpp`, `FixupLutOp`).

  When a source of a `Lut` has become a literal, the entries that look at it are
  replaced by smaller ones: the bits that are known select the rows that are kept.
-/
import Kanagawa.IR.Semantics
import Kanagawa.Lib.Bits
import Kanagawa.Lib.Except

namespace Kanagawa.Optimize

open IR Lib.Bits Lib.Except

/-! ## The pass -/

/-- `c_maxLutSources`. -/
def maxLutSources : Nat := 6

/-- `GetLiteralBit`. -/
def getLiteralBit (op : Operation) (operandIndex bitIndex : Nat) : Except Failure Bool :=
  match op.src[operandIndex]? with
  | some (.literal lit) => do
      assert (0 < lit.width)
      if bitIndex < lit.width then bitTest lit.value bitIndex
      else if op.shouldSignExtend operandIndex then bitTest lit.value (lit.width - 1)
      else return false
  | _ => .error .assertion

/-- The entry of `literalValueTable` for a source of the lookup table. -/
def literalValue (op : Operation) (source : Nat × Nat) : Except Failure (Option Bool) :=
  match op.src[source.1]? with
  | some (.literal _) => some <$> getLiteralBit op source.1 source.2
  | _ => .ok none

/-- The sources of an entry with what is known of them and their column in the table. -/
def lutColumns (entry : LutEntry) (literalValueTable : List (Option Bool)) :
    List (((Nat × Nat) × Option Bool) × Nat) :=
  (entry.sources.zip literalValueTable).zipIdx

/-- The sources that are not known, with their columns (`srcOpTable`). -/
def unknownColumns (entry : LutEntry) (literalValueTable : List (Option Bool)) :
    List ((Nat × Nat) × Nat) :=
  (lutColumns entry literalValueTable).filterMap fun c =>
    match c.1.2 with
    | none => some (c.1.1, c.2)
    | some _ => none

/-- The columns of the sources that are known, with their values (`literalSrcOpTable` and
    `literalValues`). -/
def literalColumns (entry : LutEntry) (literalValueTable : List (Option Bool)) :
    List (Nat × Bool) :=
  (lutColumns entry literalValueTable).filterMap fun c => c.1.2.map fun v => (c.2, v)

/-- `indexIntoOriginalTable` for a slot of the new table. -/
def indexIntoOriginalTable (unknown : List ((Nat × Nat) × Nat)) (literals : List (Nat × Bool))
    (newTableSlotIndex : Nat) : Nat :=
  literals.foldl (fun index l => if l.2 then index ||| 2 ^ l.1 else index)
    (unknown.zipIdx.foldl
      (fun index p => if newTableSlotIndex.testBit p.2 then index ||| 2 ^ p.1.2 else index) 0)

/-- `SetConstantLutSources`. -/
def setConstantLutSources (op : Operation) (entry : LutEntry)
    (literalValueTable : List (Option Bool)) : Except Failure LutEntry := do
  assert (entry.sources.length ≤ maxLutSources)
  let literals := literalColumns entry literalValueTable
  assert (0 < literals.length)
  let unknown := unknownColumns entry literalValueTable
  -- Operands that are not known are registers
  assert (unknown.all fun p => (op.src[p.1.1]?.bind SourceOperand.register?).isSome)
  let table := (List.range (2 ^ unknown.length)).foldl
    (fun table slot =>
      if entry.table.testBit (indexIntoOriginalTable unknown literals slot) then table ||| 2 ^ slot
      else table) 0
  return ⟨unknown.map Prod.fst, table⟩

/-- The loop body of `FixupLutOp`. -/
def fixupLutEntry (op : Operation) (entry : LutEntry) : Except Failure LutEntry := do
  let literalValueTable ← entry.sources.mapM (literalValue op)
  if literalValueTable.all Option.isNone then return entry
  else setConstantLutSources op entry literalValueTable

/-- `FixupLutOp`. -/
def fixupLutOp (op : Operation) : Except Failure Operation :=
  match op.opcode with
  | .lut entries => do
      let entries ← entries.mapM (fixupLutEntry op)
      return { op with opcode := .lut entries }
  | _ => .error .assertion

/-! ## What an entry computes -/

section

variable {entry : LutEntry} {literalValueTable : List (Option Bool)}

theorem mem_lutColumns {s : Nat × Nat} {x : Option Bool} {c : Nat} :
    ((s, x), c) ∈ lutColumns entry literalValueTable ↔
      entry.sources[c]? = some s ∧ literalValueTable[c]? = some x := by
  rw [lutColumns, List.mem_zipIdx_iff_getElem?, List.getElem?_zip_eq_some]

theorem mem_unknownColumns {s : Nat × Nat} {c : Nat} :
    (s, c) ∈ unknownColumns entry literalValueTable ↔
      entry.sources[c]? = some s ∧ literalValueTable[c]? = some none := by
  rw [← mem_lutColumns, unknownColumns, List.mem_filterMap]
  constructor
  · rintro ⟨⟨⟨s', x⟩, c'⟩, hmem, hx⟩
    cases x with
    | none =>
        obtain ⟨rfl, rfl⟩ := Prod.mk.inj (Option.some.inj hx)
        exact hmem
    | some v => exact nomatch hx
  · exact fun hmem => ⟨_, hmem, rfl⟩

theorem mem_literalColumns {c : Nat} {v : Bool} :
    (c, v) ∈ literalColumns entry literalValueTable ↔
      ∃ s, entry.sources[c]? = some s ∧ literalValueTable[c]? = some (some v) := by
  rw [literalColumns, List.mem_filterMap]
  constructor
  · rintro ⟨⟨⟨s, x⟩, c'⟩, hmem, hx⟩
    cases x with
    | none => exact nomatch hx
    | some v' =>
        obtain ⟨rfl, rfl⟩ := Prod.mk.inj (Option.some.inj hx)
        exact ⟨s, mem_lutColumns.mp hmem⟩
  · rintro ⟨s, hs⟩
    exact ⟨((s, some v), c), mem_lutColumns.mpr hs, rfl⟩

/-- The bit that a source of an entry selects. -/
def selectedBit (values : List Literal) (source : Nat × Nat) : Bool :=
  (values.getD source.1 ⟨0, 1⟩).value.testBit source.2

/-- The row that the sources select. -/
def selectedRow (values : List Literal) (sources : List (Nat × Nat)) : Nat :=
  sources.zipIdx.foldl
    (fun row p => if selectedBit values p.1 then row ||| 2 ^ p.2 else row) 0

theorem evaluate_eq (values : List Literal) :
    entry.evaluate values = entry.table.testBit (selectedRow values entry.sources) := rfl

theorem testBit_selectedRow (values : List Literal) (sources : List (Nat × Nat)) (c : Nat) :
    (selectedRow values sources).testBit c = sources[c]?.any (selectedBit values) :=
  testBit_foldl_zipIdx sources (selectedBit values) c

theorem testBit_indexIntoOriginalTable (unknown : List ((Nat × Nat) × Nat))
    (literals : List (Nat × Bool)) (slot c : Nat) :
    (indexIntoOriginalTable unknown literals slot).testBit c =
      ((unknown.zipIdx.any fun p => slot.testBit p.2 && p.1.2 == c) ||
        literals.any fun l => l.2 && l.1 == c) := by
  rw [indexIntoOriginalTable, testBit_foldl_lor literals Prod.snd Prod.fst,
    testBit_foldl_lor unknown.zipIdx (fun p => slot.testBit p.2) (fun p => p.1.2),
    Nat.zero_testBit, Bool.false_or]

/-- The row of the new table that the unknown sources select stands for the row of the
    original table that all sources select. -/
theorem indexIntoOriginalTable_selectedRow {values : List Literal}
    (hlength : literalValueTable.length = entry.sources.length)
    (hknown : ∀ (c : Nat) s v, entry.sources[c]? = some s → literalValueTable[c]? = some (some v) →
      selectedBit values s = v) :
    indexIntoOriginalTable (unknownColumns entry literalValueTable)
        (literalColumns entry literalValueTable)
        (selectedRow values ((unknownColumns entry literalValueTable).map Prod.fst)) =
      selectedRow values entry.sources := by
  refine Nat.eq_of_testBit_eq fun c => ?_
  rw [testBit_indexIntoOriginalTable, testBit_selectedRow, Bool.eq_iff_iff, Bool.or_eq_true,
    List.any_eq_true, List.any_eq_true, Option.any_eq_true]
  simp only [testBit_selectedRow, Bool.and_eq_true, beq_iff_eq]
  constructor
  · rintro (⟨⟨⟨s, c'⟩, j⟩, hmem, hbit, rfl⟩ | ⟨⟨c', v⟩, hmem, hv, rfl⟩)
    · have hat := List.mem_zipIdx_iff_getElem?.mp hmem
      rw [List.getElem?_map, hat, Option.map_some, Option.any_some] at hbit
      exact ⟨s, (mem_unknownColumns.mp (List.mem_of_getElem? hat)).1, hbit⟩
    · obtain ⟨s, hs, hlit⟩ := mem_literalColumns.mp hmem
      exact ⟨s, hs, (hknown _ s v hs hlit).trans hv⟩
  · rintro ⟨s, hs, hbit⟩
    have hc : c < literalValueTable.length := by
      rw [hlength]
      exact (List.getElem?_eq_some_iff.mp hs).1
    cases hlit : literalValueTable[c] with
    | none =>
        -- The source is unknown, and has a place in the new table
        have hat := List.getElem?_eq_getElem hc
        rw [hlit] at hat
        obtain ⟨j, hj⟩ := List.getElem?_of_mem (mem_unknownColumns.mpr ⟨hs, hat⟩)
        refine .inl ⟨((s, c), j), List.mem_zipIdx_iff_getElem?.mpr hj, ?_, rfl⟩
        rw [List.getElem?_map, hj, Option.map_some, Option.any_some]
        exact hbit
    | some v =>
        have hat := List.getElem?_eq_getElem hc
        rw [hlit] at hat
        refine .inr ⟨(c, v), mem_literalColumns.mpr ⟨s, hs, hat⟩, ?_, rfl⟩
        rw [← hknown c s v hs hat]
        exact hbit

theorem selectedRow_lt (values : List Literal) (sources : List (Nat × Nat)) :
    selectedRow values sources < 2 ^ sources.length := by
  refine Nat.lt_pow_two_of_testBit _ fun c hc => ?_
  rw [testBit_selectedRow, List.getElem?_eq_none hc]
  rfl

theorem setConstantLutSources_eq {op : Operation} {entry' : LutEntry}
    (hok : setConstantLutSources op entry literalValueTable = .ok entry') :
    entry' = ⟨(unknownColumns entry literalValueTable).map Prod.fst,
      (List.range (2 ^ (unknownColumns entry literalValueTable).length)).foldl
        (fun table slot =>
          if entry.table.testBit (indexIntoOriginalTable (unknownColumns entry literalValueTable)
              (literalColumns entry literalValueTable) slot) then table ||| 2 ^ slot
          else table) 0⟩ := by
  unfold setConstantLutSources at hok
  simp only [bind_eq_ok_iff, pure_eq_ok, Except.ok.injEq] at hok
  obtain ⟨-, -, -, -, -, -, rfl⟩ := hok
  rfl

theorem setConstantLutSources_sources {op : Operation} {entry' : LutEntry}
    (hok : setConstantLutSources op entry literalValueTable = .ok entry') :
    entry'.sources ⊆ entry.sources ∧ entry'.sources.length ≤ entry.sources.length := by
  rw [setConstantLutSources_eq hok]
  refine ⟨fun s hs => ?_, ?_⟩
  · obtain ⟨p, hp, rfl⟩ := List.mem_map.mp hs
    exact List.mem_of_getElem? (mem_unknownColumns.mp hp).1
  · rw [List.length_map, unknownColumns]
    refine (List.length_filterMap_le _ _).trans ?_
    rw [lutColumns, List.length_zipIdx, List.length_zip]
    exact Nat.min_le_left _ _

/-- The new entry computes what the original one did. -/
theorem setConstantLutSources_evaluate {op : Operation} {entry' : LutEntry}
    {values : List Literal} (hlength : literalValueTable.length = entry.sources.length)
    (hknown : ∀ (c : Nat) s v, entry.sources[c]? = some s →
      literalValueTable[c]? = some (some v) → selectedBit values s = v)
    (hok : setConstantLutSources op entry literalValueTable = .ok entry') :
    entry'.evaluate values = entry.evaluate values := by
  rw [setConstantLutSources_eq hok, evaluate_eq, evaluate_eq,
    ← indexIntoOriginalTable_selectedRow hlength hknown]
  have hlt := selectedRow_lt values ((unknownColumns entry literalValueTable).map Prod.fst)
  rw [List.length_map] at hlt
  dsimp only
  rw [testBit_foldl_lor _ _ fun slot => slot, Nat.zero_testBit, Bool.false_or,
    Bool.eq_iff_iff, List.any_eq_true]
  simp only [Bool.and_eq_true, beq_iff_eq]
  constructor
  · rintro ⟨slot, -, hbit, rfl⟩
    exact hbit
  · exact fun hbit => ⟨_, List.mem_range.mpr hlt, hbit, rfl⟩

end

/-! ## The operation -/

/-- A source of an entry is a bit of a register or of a literal. -/
inductive LutSourceShape (table : RegisterTable) (src : List SourceOperand)
    (source : Nat × Nat) : Prop
  | literal (l : Literal) (hsrc : src[source.1]? = some (.literal l))
      (hbit : source.2 < l.width) (hle : l.width ≤ 2 ^ 32)
  | register (r : Nat) (hsrc : src[source.1]? = some (.register r))
      (hbit : source.2 < (table.desc r).width) (hle : (table.desc r).width ≤ 2 ^ 32)

/-- The entries of a lookup table. -/
def LutShape (table : RegisterTable) (src : List SourceOperand) (entries : List LutEntry) :
    Prop :=
  ∀ entry ∈ entries, entry.sources.length ≤ maxLutSources ∧
    ∀ source ∈ entry.sources, LutSourceShape table src source

/-- What is known of a source. -/
def knownBit (op : Operation) (source : Nat × Nat) : Option Bool :=
  match op.src[source.1]? with
  | some (.literal l) => some (l.value.testBit source.2)
  | _ => none

/-- The values of the sources are those of the literals among them. -/
def AgreesWithLiterals (src : List SourceOperand) (values : List Literal) : Prop :=
  ∀ (i : Nat) (l : Literal), src[i]? = some (.literal l) → values[i]? = some l

section

variable {table : RegisterTable} {op : Operation}

theorem literalValue_eq {source : Nat × Nat} (h : LutSourceShape table op.src source) :
    literalValue op source = .ok (knownBit op source) := by
  rcases h with ⟨l, hsrc, hbit, hle⟩ | ⟨r, hsrc, -, -⟩
  · have htest : bitTest l.value source.2 = .ok (l.value.testBit source.2) :=
      if_pos (by unfold uint32Max; omega)
    have hpos : (0 < l.width) := by omega
    simp only [literalValue, knownBit, hsrc, getLiteralBit, hbit, if_true, htest,
      assert_of_true (decide_eq_true hpos), ok_bind]
    rfl
  · simp only [literalValue, knownBit, hsrc]

theorem selectedBit_of_known {source : Nat × Nat} {values : List Literal} {v : Bool}
    (hagree : AgreesWithLiterals op.src values) (hv : knownBit op source = some v) :
    selectedBit values source = v := by
  unfold knownBit at hv
  split at hv
  next l hsrc =>
    rw [selectedBit, List.getD_eq_getElem?_getD, hagree _ l hsrc, Option.getD_some]
    exact Option.some.inj hv
  next => exact nomatch hv

/-- The pass can tell whether a source is known, and those that are not are registers. -/
structure ReadableSource (op : Operation) (source : Nat × Nat) : Prop where
  reads : literalValue op source = .ok (knownBit op source)
  register : knownBit op source = none → ∃ r, op.src[source.1]? = some (.register r)

theorem LutSourceShape.readable {source : Nat × Nat} (h : LutSourceShape table op.src source) :
    ReadableSource op source := by
  refine ⟨literalValue_eq h, fun hnone => ?_⟩
  rcases h with ⟨l, hsrc, -, -⟩ | ⟨r, hsrc, -, -⟩
  · rw [knownBit, hsrc] at hnone
    exact nomatch hnone
  · exact ⟨r, hsrc⟩

/-- The assertions hold when some source is known and the others are registers. -/
theorem setConstantLutSources_ok {entry : LutEntry}
    (hlength : entry.sources.length ≤ maxLutSources)
    (hsources : ∀ source ∈ entry.sources, ReadableSource op source)
    {source : Nat × Nat} {v : Bool} (hmem : source ∈ entry.sources)
    (hknown : knownBit op source = some v) :
    ∃ entry', setConstantLutSources op entry (entry.sources.map (knownBit op)) = .ok entry' := by
  have hliteral : 0 < (literalColumns entry (entry.sources.map (knownBit op))).length := by
    obtain ⟨c, hc⟩ := List.getElem?_of_mem hmem
    have hat : (entry.sources.map (knownBit op))[c]? = some (some v) := by
      rw [List.getElem?_map, hc, Option.map_some, hknown]
    exact List.length_pos_of_mem (mem_literalColumns.mpr ⟨source, hc, hat⟩)
  have hregisters : ((unknownColumns entry (entry.sources.map (knownBit op))).all fun p =>
      (op.src[p.1.1]?.bind SourceOperand.register?).isSome) = true := by
    rw [List.all_eq_true]
    rintro ⟨s, c⟩ hmem
    obtain ⟨hs, hnone⟩ := mem_unknownColumns.mp hmem
    rw [List.getElem?_map, hs, Option.map_some, Option.some.injEq] at hnone
    obtain ⟨r, hsrc⟩ := (hsources s (List.mem_of_getElem? hs)).register hnone
    simp only [hsrc]
    rfl
  unfold setConstantLutSources
  simp only [assert_of_true (decide_eq_true hlength), assert_of_true (decide_eq_true hliteral),
    assert_of_true hregisters, ok_bind]
  exact ⟨_, rfl⟩

/-- What `FixupLutOp` makes of an entry. -/
structure FixedUpEntry (op : Operation) (entry entry' : LutEntry) : Prop where
  sources : entry'.sources ⊆ entry.sources
  length_le : entry'.sources.length ≤ entry.sources.length
  unknown : ∀ source ∈ entry'.sources, knownBit op source = none
  unchanged : (∀ source ∈ entry.sources, knownBit op source = none) → entry' = entry
  shorter : (∃ source ∈ entry.sources, knownBit op source ≠ none) →
    entry'.sources.length < entry.sources.length
  table : (entry.sources = [] → entry.table ≤ 1) → entry'.sources = [] → entry'.table ≤ 1
  evaluate : ∀ values, AgreesWithLiterals op.src values →
    entry'.evaluate values = entry.evaluate values

/-- Fewer sources are left when one of them is known. -/
theorem length_unknownColumns_lt {entry : LutEntry} {source : Nat × Nat}
    (hmem : source ∈ entry.sources) (hknown : knownBit op source ≠ none) :
    (unknownColumns entry (entry.sources.map (knownBit op))).length < entry.sources.length := by
  obtain ⟨v, hv⟩ := Option.ne_none_iff_exists'.mp hknown
  obtain ⟨c, hc⟩ := List.getElem?_of_mem hmem
  have hat : ((source, some v), c) ∈ lutColumns entry (entry.sources.map (knownBit op)) := by
    rw [mem_lutColumns, List.getElem?_map, hc, Option.map_some, hv]
    exact ⟨rfl, rfl⟩
  have hlength : (lutColumns entry (entry.sources.map (knownBit op))).length
      = entry.sources.length := by
    rw [lutColumns, List.length_zipIdx, List.length_zip, List.length_map, Nat.min_self]
  rw [← hlength, unknownColumns]
  exact List.length_filterMap_lt_length_iff_exists.mpr ⟨_, hat, rfl⟩

/-- Every entry can be replaced, and computes the same afterwards. -/
theorem fixupLutEntry_ok {entry : LutEntry} (hlength : entry.sources.length ≤ maxLutSources)
    (hsources : ∀ source ∈ entry.sources, ReadableSource op source) :
    ∃ entry', fixupLutEntry op entry = .ok entry' ∧ FixedUpEntry op entry entry' := by
  have hmap : entry.sources.mapM (literalValue op) = .ok (entry.sources.map (knownBit op)) :=
    mapM_eq_ok fun source hs => (hsources source hs).reads
  unfold fixupLutEntry
  rw [hmap, ok_bind]
  split
  next hnone =>
    have hunknown : ∀ source ∈ entry.sources, knownBit op source = none := fun source hs =>
      Option.isNone_iff_eq_none.mp (List.all_eq_true.mp hnone _ (List.mem_map_of_mem hs))
    exact ⟨entry, rfl, fun _ => id, Nat.le_refl _, hunknown, fun _ => rfl,
      fun ⟨source, hs, hne⟩ => absurd (hunknown source hs) hne, id, fun _ _ => rfl⟩
  next hsome =>
    rw [List.all_eq_true] at hsome
    push Not at hsome
    obtain ⟨x, hx, hne⟩ := hsome
    obtain ⟨source, hmem, rfl⟩ := List.mem_map.mp hx
    have hknown : knownBit op source ≠ none := fun h => hne (by rw [h]; rfl)
    obtain ⟨v, hv⟩ := Option.ne_none_iff_exists'.mp hknown
    obtain ⟨entry', hok⟩ := setConstantLutSources_ok hlength hsources hmem hv
    have heq := setConstantLutSources_eq hok
    have hlt : entry'.sources.length < entry.sources.length := by
      rw [heq, List.length_map]
      exact length_unknownColumns_lt hmem hknown
    refine ⟨entry', hok, (setConstantLutSources_sources hok).1, Nat.le_of_lt hlt, ?_,
      fun hall => absurd (hall source hmem) hknown, fun _ => hlt, fun _ hnil => ?_,
      fun values hagree => ?_⟩
    · intro s hs
      rw [heq] at hs
      obtain ⟨p, hp, rfl⟩ := List.mem_map.mp hs
      obtain ⟨hat, hnone⟩ := mem_unknownColumns.mp hp
      rw [List.getElem?_map, hat, Option.map_some, Option.some.injEq] at hnone
      exact hnone
    · -- The table of an entry without sources has one row
      rw [heq] at hnil ⊢
      have hempty := List.map_eq_nil_iff.mp hnil
      rw [hempty]
      dsimp only [List.length_nil, Nat.pow_zero, List.range_one, List.foldl_cons, List.foldl_nil]
      split <;> decide
    · refine setConstantLutSources_evaluate (List.length_map _) (fun c s v hs hlit => ?_) hok
      rw [List.getElem?_map, hs, Option.map_some, Option.some.injEq] at hlit
      exact selectedBit_of_known hagree hlit

/-- Every entry of a well-shaped table can be replaced, and computes the same afterwards. -/
theorem fixupLutEntry_spec {entry : LutEntry} (hlength : entry.sources.length ≤ maxLutSources)
    (hsources : ∀ source ∈ entry.sources, LutSourceShape table op.src source) :
    ∃ entry', fixupLutEntry op entry = .ok entry' ∧
      (entry'.sources ⊆ entry.sources ∧ entry'.sources.length ≤ entry.sources.length) ∧
      ∀ values, AgreesWithLiterals op.src values → entry'.evaluate values = entry.evaluate values := by
  obtain ⟨entry', hok, hfixed⟩ := fixupLutEntry_ok hlength fun s hs => (hsources s hs).readable
  exact ⟨entry', hok, ⟨hfixed.sources, hfixed.length_le⟩, hfixed.evaluate⟩

theorem lutBits_congr {entries entries' : List LutEntry} {values values' : List Literal}
    (h : List.Forall₂ (fun entry entry' => entry'.evaluate values' = entry.evaluate values)
      entries entries') : lutBits entries' values' = lutBits entries values := by
  have hmap : entries'.map (·.evaluate values') = entries.map (·.evaluate values) := by
    induction h with
    | nil => rfl
    | cons heq _ ih => rw [List.map_cons, List.map_cons, heq, ih]
  refine Nat.eq_of_testBit_eq fun c => ?_
  unfold lutBits
  rw [testBit_foldl_zipIdx entries' (·.evaluate values'),
    testBit_foldl_zipIdx entries (·.evaluate values)]
  have hc := congrArg (fun l : List Bool => l[c]?.any id) hmap
  simpa only [List.getElem?_map, Option.any_map, Function.comp_def, id_eq] using hc

/-- `FixupLutOp` succeeds, and the operation computes the same afterwards. -/
theorem fixupLutOp_spec {entries : List LutEntry} (hop : op.opcode = .lut entries)
    (hshape : LutShape table op.src entries) :
    ∃ entries', fixupLutOp op = .ok { op with opcode := .lut entries' } ∧
      LutShape table op.src entries' ∧
      ∀ values, AgreesWithLiterals op.src values →
        lutBits entries' values = lutBits entries values := by
  obtain ⟨entries', hok, hall⟩ := mapM_succeeds (l := entries) fun entry hentry =>
    fixupLutEntry_spec (hshape entry hentry).1 (hshape entry hentry).2
  refine ⟨entries', ?_, fun entry' hentry' => ?_, fun values hagree => ?_⟩
  · simp only [fixupLutOp, hop, hok, ok_bind, pure_eq_ok]
  · obtain ⟨entry, hentry, hsub, hle⟩ : ∃ entry ∈ entries, entry'.sources ⊆ entry.sources ∧
        entry'.sources.length ≤ entry.sources.length := by
      clear hok hshape hop
      induction hall with
      | nil => exact nomatch hentry'
      | cons hR _ ih =>
          rcases List.mem_cons.mp hentry' with rfl | hmem
          · exact ⟨_, List.mem_cons_self, hR.1⟩
          · obtain ⟨entry, hentry, hrest⟩ := ih hmem
            exact ⟨entry, List.mem_cons_of_mem _ hentry, hrest⟩
    obtain ⟨hlength, hsources⟩ := hshape entry hentry
    exact ⟨hle.trans hlength, fun source hs => hsources source (hsub hs)⟩
  · exact lutBits_congr (hall.imp fun _ _ hR => hR.2 values hagree)

end

end Kanagawa.Optimize
