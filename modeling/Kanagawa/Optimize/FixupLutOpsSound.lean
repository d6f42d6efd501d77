/-
  Kanagawa.Optimize.FixupLutOpsSound

  What `FixupLutOps` makes of lookup tables.

  Every rewrite says whether it changed the operation.  If it did, the operation
  became smaller, counting its operands and the columns of its tables; if it did
  not, the operation is the same as before.  So the loop ends, and when it does
  none of the rewrites applies to the operation it leaves, which is what the
  canonical form says.  In each iteration the literals are gone before operands
  for the same register are merged.
-/
import Kanagawa.IR.Combinational
import Kanagawa.Lib.TruthTable
import Kanagawa.Optimize.FixupLutOps

namespace Kanagawa.Optimize

open IR Lib Lib.Bits Lib.Except

/-! ## Entries -/

theorem evaluate_eq_eval (entry : LutEntry) (values : List Literal) :
    entry.evaluate values = TruthTable.eval (selectedBit values) entry.sources entry.table := rfl

/-- An entry after a rewrite that changes it exactly when `changed`: some of its sources are
    gone, and it computes the same. -/
structure Shrinks (src : List SourceOperand) (changed : Bool) (entry entry' : LutEntry) : Prop where
  sources : entry'.sources ⊆ entry.sources
  shorter : changed = true → entry'.sources.length < entry.sources.length
  unchanged : changed = false → entry' = entry
  table : (entry.sources = [] → entry.table ≤ 1) → entry'.sources = [] → entry'.table ≤ 1
  evaluate : ∀ values, AgreesWithLiterals src values →
    entry'.evaluate values = entry.evaluate values

theorem Shrinks.refl (src : List SourceOperand) (entry : LutEntry) :
    Shrinks src false entry entry :=
  ⟨fun _ => id, nofun, fun _ => rfl, id, fun _ _ => rfl⟩

theorem Shrinks.length_le {src : List SourceOperand} {changed : Bool} {entry entry' : LutEntry}
    (h : Shrinks src changed entry entry') : entry'.sources.length ≤ entry.sources.length := by
  cases changed with
  | true => exact Nat.le_of_lt (h.shorter rfl)
  | false => rw [h.unchanged rfl]

theorem FixedUpEntry.shrinks {op : Operation} {entry entry' : LutEntry}
    (h : FixedUpEntry op entry entry') :
    Shrinks op.src (entry.sources.any fun source => (knownBit op source).isSome) entry entry' := by
  refine ⟨h.sources, fun hany => ?_, fun hany => ?_, h.table, h.evaluate⟩
  · obtain ⟨source, hmem, hsome⟩ := List.any_eq_true.mp hany
    exact h.shorter ⟨source, hmem, Option.isSome_iff_ne_none.mp hsome⟩
  · refine h.unchanged fun source hmem => ?_
    have hnone := List.any_eq_false.mp hany source hmem
    simpa using hnone

/-! ### Columns without effect -/

section

variable {entry : LutEntry} {n c : Nat}

/-- The table that `RemoveSourceFromLut` makes. -/
theorem removeSourceFromLut_eq (hlength : entry.sources.length = n + 1) (hc : c ≤ n) (v : Bool) :
    ∃ table, removeSourceFromLut entry c v = .ok ⟨entry.sources.eraseIdx c, table⟩ ∧
      ∀ k, table.testBit k =
        (decide (k < 2 ^ n) && entry.table.testBit (TruthTable.insertBit c v k)) := by
  have hhalf : 2 ^ n = 2 ^ (n + 1) / 2 := by rw [Nat.pow_succ, Nat.mul_div_cancel _ (by decide)]
  unfold removeSourceFromLut
  dsimp only
  rw [hlength, TruthTable.filter_range_testBit hc v, assert_of_true (decide_eq_true (by omega)),
    ok_bind, assert_of_true (by rw [List.length_map, List.length_range, ← hhalf, beq_self_eq_true]),
    ok_bind, pure_eq_ok]
  refine ⟨_, rfl, fun k => ?_⟩
  rw [testBit_foldl_zipIdx _ entry.table.testBit, List.getElem?_map]
  rcases Nat.lt_or_ge k (2 ^ n) with hk | hk
  · rw [List.getElem?_range hk, decide_eq_true hk, Bool.true_and]
    rfl
  · rw [List.getElem?_eq_none (by rw [List.length_range]; exact hk),
      decide_eq_false (by omega), Bool.false_and]
    rfl

/-- The two halves of the table are the same exactly when the column has no effect. -/
theorem halves_eq_iff (hc : c ≤ n) {table table0 table1 : Nat}
    (h0 : ∀ k, table0.testBit k =
      (decide (k < 2 ^ n) && table.testBit (TruthTable.insertBit c false k)))
    (h1 : ∀ k, table1.testBit k =
      (decide (k < 2 ^ n) && table.testBit (TruthTable.insertBit c true k))) :
    table0 = table1 ↔ ¬ TruthTable.DependsOn table (n + 1) c := by
  rw [TruthTable.dependsOn_iff hc]
  constructor
  · rintro rfl ⟨k, hk, hne⟩
    refine hne ?_
    have heq := (h0 k).symm.trans (h1 k)
    rwa [decide_eq_true hk, Bool.true_and, Bool.true_and] at heq
  · intro hsame
    refine Nat.eq_of_testBit_eq fun k => ?_
    rw [h0, h1]
    by_cases hk : k < 2 ^ n
    · rw [decide_eq_true hk, Bool.true_and, Bool.true_and]
      exact by_contra fun hne => hsame ⟨k, hk, hne⟩
    · rw [decide_eq_false hk, Bool.false_and, Bool.false_and]

/-- An entry without a column that has no effect. -/
theorem shrinks_of_not_dependsOn (src : List SourceOperand)
    (hlength : entry.sources.length = n + 1) (hc : c ≤ n)
    (hdepends : ¬ TruthTable.DependsOn entry.table (n + 1) c) {table0 : Nat}
    (h0 : ∀ k, table0.testBit k =
      (decide (k < 2 ^ n) && entry.table.testBit (TruthTable.insertBit c false k))) :
    Shrinks src true entry ⟨entry.sources.eraseIdx c, table0⟩ := by
  have herase : (entry.sources.eraseIdx c).length = n := by
    rw [List.length_eraseIdx_of_lt (by omega), hlength, Nat.add_sub_cancel]
  refine ⟨List.eraseIdx_subset, fun _ => ?_, nofun, fun _ hnil => ?_, fun values _ => ?_⟩
  · show (entry.sources.eraseIdx c).length < _
    omega
  · have hn : n = 0 := by rw [← herase]; exact List.length_eq_zero_iff.mpr hnil
    refine Nat.le_of_lt_succ (Nat.lt_pow_two_of_testBit (n := 1) _ fun k hk => ?_)
    rw [h0, hn, decide_eq_false (by omega), Bool.false_and]
  · have hrow := TruthTable.row_lt (selectedBit values) (entry.sources.eraseIdx c)
    rw [herase] at hrow
    have hx := List.getElem?_eq_getElem (l := entry.sources) (i := c) (by omega)
    rw [evaluate_eq_eval, evaluate_eq_eval, TruthTable.eval, TruthTable.eval, h0,
      decide_eq_true hrow, Bool.true_and, ← TruthTable.row_eraseIdx hx]
    exact TruthTable.testBit_insertBit_of_not_dependsOn hc hdepends hrow _ _

/-- The first candidate without effect is removed, if there is one. -/
theorem removeCandidate_spec (src : List SourceOperand) (entry : LutEntry) {candidates : List Nat}
    (hmem : ∀ c ∈ candidates, c < entry.sources.length) :
    ∃ entry', removeCandidate entry candidates = .ok (entry', candidates.any fun c =>
        !decide (TruthTable.DependsOn entry.table entry.sources.length c)) ∧
      Shrinks src (candidates.any fun c =>
        !decide (TruthTable.DependsOn entry.table entry.sources.length c)) entry entry' := by
  induction candidates with
  | nil => exact ⟨entry, rfl, Shrinks.refl src entry⟩
  | cons c candidates ih =>
      have hc := hmem c List.mem_cons_self
      obtain ⟨n, hlength⟩ : ∃ n, entry.sources.length = n + 1 := ⟨_, (Nat.sub_add_cancel
        (Nat.lt_of_le_of_lt (Nat.zero_le c) hc)).symm⟩
      have hle : c ≤ n := by omega
      obtain ⟨table0, hok0, h0⟩ := removeSourceFromLut_eq hlength hle false
      obtain ⟨table1, hok1, h1⟩ := removeSourceFromLut_eq hlength hle true
      have hiff := halves_eq_iff hle h0 h1
      simp only [removeCandidate, hok0, hok1, ok_bind, List.any_cons]
      rw [hlength] at ih ⊢
      by_cases heq : table0 = table1
      · rw [if_pos (beq_iff_eq.mpr heq), decide_eq_false (hiff.mp heq), Bool.not_false,
          Bool.true_or]
        exact ⟨_, rfl, shrinks_of_not_dependsOn src hlength hle (hiff.mp heq) h0⟩
      · have hdep : TruthTable.DependsOn entry.table (n + 1) c :=
          by_contra fun h => heq (hiff.mpr h)
        rw [if_neg (fun h => heq (beq_iff_eq.mp h)), decide_eq_true hdep, Bool.not_true,
          Bool.false_or]
        exact ih fun c' hc' => hlength ▸ hmem c' (List.mem_cons_of_mem _ hc')

end

/-! ### Columns for the same bit -/

/-- What the map from bits to columns says. -/
structure ColumnsOf (sources : List (Nat × Nat)) (columns : List ((Nat × Nat) × List Nat)) :
    Prop where
  nodup : (columns.map Prod.fst).Nodup
  old : ∀ column ∈ columns, ∀ c, c ∈ column.2 ↔ sources[c]? = some column.1
  covers : ∀ s, s ∈ columns.map Prod.fst ↔ s ∈ sources

theorem map_fst_addColumn_of_mem {columns : List ((Nat × Nat) × List Nat)} {s : Nat × Nat}
    {k : Nat} (h : s ∈ columns.map Prod.fst) :
    (addColumn columns (s, k)).map Prod.fst = columns.map Prod.fst := by
  rw [addColumn, if_pos h, List.map_map]
  refine List.map_congr_left fun column _ => ?_
  rw [Function.comp_apply]
  split <;> rfl

theorem ColumnsOf.addColumn {sources : List (Nat × Nat)}
    {columns : List ((Nat × Nat) × List Nat)} (h : ColumnsOf sources columns) (s : Nat × Nat) :
    ColumnsOf (sources ++ [s]) (addColumn columns (s, sources.length)) := by
  have hat : ∀ c x, (sources ++ [s])[c]? = some x ↔
      sources[c]? = some x ∨ (c = sources.length ∧ s = x) := by
    intro c x
    rw [List.getElem?_append]
    split
    next hlt => exact ⟨Or.inl, fun h => h.resolve_right fun hc => by omega⟩
    next hge =>
      rw [List.getElem?_eq_none (Nat.le_of_not_lt hge), List.getElem?_singleton]
      constructor
      · intro hx
        split at hx
        next heq => exact .inr ⟨by omega, Option.some.inj hx⟩
        next => exact nomatch hx
      · rintro (hx | ⟨heq, rfl⟩)
        · exact nomatch hx
        · rw [if_pos (by omega)]
  by_cases hs : s ∈ columns.map Prod.fst
  · refine ⟨?_, fun column hcolumn c => ?_, fun x => ?_⟩
    · rw [map_fst_addColumn_of_mem hs]
      exact h.nodup
    · rw [Optimize.addColumn, if_pos hs] at hcolumn
      obtain ⟨column, hmem, rfl⟩ := List.mem_map.mp hcolumn
      rw [hat]
      split
      next heq =>
        subst heq
        rw [List.mem_append, List.mem_singleton, h.old column hmem]
        exact or_congr_right (and_iff_left rfl).symm
      next hne =>
        rw [h.old column hmem]
        exact ⟨Or.inl, fun hx => hx.resolve_right fun hc => hne hc.2.symm⟩
    · rw [map_fst_addColumn_of_mem hs, h.covers, List.mem_append, List.mem_singleton]
      exact ⟨Or.inl, fun hx => hx.elim id fun heq => heq ▸ (h.covers s).mp hs⟩
  · have hnew : s ∉ sources := fun hmem => hs ((h.covers s).mpr hmem)
    rw [Optimize.addColumn, if_neg hs]
    refine ⟨?_, fun column hcolumn c => ?_, fun x => ?_⟩
    · rw [List.map_append, List.map_singleton, List.nodup_append]
      refine ⟨h.nodup, List.nodup_singleton _, fun a ha b hb heq => ?_⟩
      obtain rfl : b = s := List.mem_singleton.mp hb
      exact hs (heq ▸ ha)
    · rw [hat]
      rcases List.mem_append.mp hcolumn with hmem | hmem
      · rw [h.old column hmem]
        refine ⟨Or.inl, fun hx => hx.resolve_right fun hc => hs ?_⟩
        exact hc.2 ▸ List.mem_map_of_mem hmem
      · rw [List.mem_singleton] at hmem
        subst hmem
        rw [List.mem_singleton]
        refine ⟨fun hc => .inr ⟨hc, rfl⟩, fun hx => hx.elim (fun hc => ?_) And.left⟩
        exact absurd (List.mem_of_getElem? hc) hnew
    · rw [List.map_append, List.map_singleton, List.mem_append, List.mem_append, h.covers]

theorem columnsOf_oldColumns (sources : List (Nat × Nat)) :
    ColumnsOf sources (oldColumns sources) := by
  induction sources using List.reverseRecOn with
  | nil => exact ⟨.nil, fun column hcolumn => absurd hcolumn List.not_mem_nil, fun s => Iff.rfl⟩
  | append_singleton sources s ih =>
      rw [oldColumns, List.zipIdx_append, List.foldl_append, Nat.zero_add]
      exact ih.addColumn s

theorem testBit_originalTableIndex (columns : List ((Nat × Nat) × List Nat)) (r c : Nat) :
    (originalTableIndex columns r).testBit c =
      columns.zipIdx.any fun p => r.testBit p.2 && p.1.2.any (· == c) := by
  have hfold : ∀ (l : List (((Nat × Nat) × List Nat) × Nat)) (init : Nat),
      (l.foldl (fun (index : Nat) (p : ((Nat × Nat) × List Nat) × Nat) =>
        if r.testBit p.2 then
          p.1.2.foldl (fun (index : Nat) (i : Nat) => index ||| 2 ^ i) index
        else index) init).testBit c =
      (init.testBit c || l.any fun p => r.testBit p.2 && p.1.2.any (· == c)) := by
    intro l
    induction l with
    | nil => exact fun init => (Bool.or_false _).symm
    | cons p l ih =>
        intro init
        rw [List.foldl_cons, ih, List.any_cons]
        cases r.testBit p.2 with
        | false => rw [if_neg Bool.false_ne_true, Bool.false_and, Bool.false_or]
        | true =>
            rw [if_pos rfl, testBit_foldl_or, Bool.true_and, Bool.or_assoc]
            simp only [Nat.testBit_two_pow, beq_eq_decide]
  rw [originalTableIndex, hfold, Nat.zero_testBit, Bool.false_or]

/-- A row of the new table stands for the row of the original one with the same bits. -/
theorem originalTableIndex_row {sources : List (Nat × Nat)}
    {columns : List ((Nat × Nat) × List Nat)} (h : ColumnsOf sources columns)
    (bit : Nat × Nat → Bool) :
    originalTableIndex columns (TruthTable.row bit (columns.map Prod.fst)) =
      TruthTable.row bit sources := by
  refine Nat.eq_of_testBit_eq fun c => ?_
  rw [testBit_originalTableIndex, TruthTable.testBit_row, Bool.eq_iff_iff, List.any_eq_true,
    Option.any_eq_true]
  simp only [TruthTable.testBit_row, Bool.and_eq_true, List.any_eq_true, beq_iff_eq]
  constructor
  · rintro ⟨⟨column, j⟩, hmem, hbit, c', hc', rfl⟩
    have hj := List.mem_zipIdx_iff_getElem?.mp hmem
    rw [List.getElem?_map, hj, Option.map_some, Option.any_some] at hbit
    exact ⟨column.1, (h.old column (List.mem_of_getElem? hj) c').mp hc', hbit⟩
  · rintro ⟨s, hs, hbit⟩
    obtain ⟨column, hcolumn, rfl⟩ := List.mem_map.mp ((h.covers s).mpr (List.mem_of_getElem? hs))
    obtain ⟨j, hj⟩ := List.getElem?_of_mem hcolumn
    refine ⟨(column, j), List.mem_zipIdx_iff_getElem?.mpr hj, ?_, c, (h.old column hcolumn c).mpr hs,
      rfl⟩
    rw [List.getElem?_map, hj, Option.map_some, Option.any_some]
    exact hbit

theorem ColumnsOf.length_le {sources : List (Nat × Nat)}
    {columns : List ((Nat × Nat) × List Nat)} (h : ColumnsOf sources columns) :
    columns.length ≤ sources.length := by
  have hsub := List.subperm_of_subset h.nodup fun s hs => (h.covers s).mp hs
  rw [← List.length_map (f := Prod.fst)]
  exact hsub.length_le

/-- There are fewer columns exactly when a bit has two. -/
theorem ColumnsOf.length_lt_iff {sources : List (Nat × Nat)}
    {columns : List ((Nat × Nat) × List Nat)} (h : ColumnsOf sources columns) :
    columns.length < sources.length ↔ ¬ sources.Nodup := by
  have hsub := List.subperm_of_subset h.nodup fun s hs => (h.covers s).mp hs
  have hlength : (columns.map Prod.fst).length = columns.length := List.length_map _
  constructor
  · intro hlt hnodup
    have hperm := (List.perm_ext_iff_of_nodup h.nodup hnodup).mpr h.covers
    have := hperm.length_eq
    omega
  · intro hnodup
    refine Nat.lt_of_not_le fun hle => hnodup ?_
    have hperm := hsub.perm_of_length_le (by omega)
    exact hperm.nodup_iff.mp h.nodup

theorem removeDuplicateColumns_spec (src : List SourceOperand) (entry : LutEntry) :
    ∃ entry', removeDuplicateColumns entry = .ok (entry', !decide entry.sources.Nodup) ∧
      Shrinks src (!decide entry.sources.Nodup) entry entry' := by
  have h := columnsOf_oldColumns entry.sources
  unfold removeDuplicateColumns
  dsimp only
  rw [assert_of_true (decide_eq_true h.length_le), ok_bind]
  by_cases hnodup : entry.sources.Nodup
  · rw [if_neg fun hlt => h.length_lt_iff.mp hlt hnodup, decide_eq_true hnodup]
    exact ⟨entry, rfl, Shrinks.refl src entry⟩
  · have hlt := h.length_lt_iff.mpr hnodup
    have hlength : ((oldColumns entry.sources).map Prod.fst).length
        = (oldColumns entry.sources).length := List.length_map _
    rw [if_pos hlt, decide_eq_false hnodup]
    refine ⟨_, rfl, fun s hs => (h.covers s).mp hs, fun _ => ?_, nofun, fun hconstant hnil => ?_,
      fun values _ => ?_⟩
    · rw [hlength]
      exact hlt
    · -- A source that is there twice is not gone
      have hempty := List.map_eq_nil_iff.mp hnil
      have hnone : entry.sources = [] := List.eq_nil_iff_forall_not_mem.mpr fun s hs => by
        have := (h.covers s).mpr hs
        rw [hempty] at this
        exact nomatch this
      rw [hnone] at hnodup
      exact absurd List.nodup_nil hnodup
    · have hrow := TruthTable.row_lt (selectedBit values) ((oldColumns entry.sources).map Prod.fst)
      rw [hlength] at hrow
      rw [evaluate_eq_eval, evaluate_eq_eval, TruthTable.eval, TruthTable.eval,
        TruthTable.testBit_foldl_range, decide_eq_true hrow, Bool.true_and,
        originalTableIndex_row h]

/-! ## Operations -/

/-- An operand of a lookup table: a literal that fits its width, or a register. -/
inductive LutOperand : SourceOperand → Prop
  | literal (l : Literal) (hpos : 0 < l.width) (hle : l.width ≤ 2 ^ 32)
      (hfits : l.value < 2 ^ l.width) : LutOperand (.literal l)
  | register (r : Nat) : LutOperand (.register r)

/-- A `Lut` operation as the compiler makes them: it has one destination, sign extension is
    baked into its tables, and the table of an entry without sources is a bit. -/
structure LutOperation (op : Operation) (entries : List LutEntry) : Prop where
  opcode : op.opcode = .lut entries
  mask : op.signExtendSourceMask = 0
  dst : op.dst.length = 1
  operands : ∀ s ∈ op.src, LutOperand s
  length_le : ∀ entry ∈ entries, entry.sources.length ≤ maxLutSources
  inRange : ∀ entry ∈ entries, ∀ source ∈ entry.sources, source.1 < op.src.length
  constants : ∀ entry ∈ entries, entry.sources = [] → entry.table ≤ 1

/-- The value of an operand. -/
def operandLiteral (table : RegisterTable) (regs : Nat → Nat) (s : SourceOperand) : Literal :=
  (s.literalIn table regs).getD ⟨0, 1⟩

/-- The value an operation gives a destination. -/
def operationValue (table : RegisterTable) (regs : Nat → Nat) (dstWidth : Nat) (op : Operation) :
    Option Nat := do
  let sources ← op.src.mapM (SourceOperand.literalIn table regs)
  combinationalResult op.opcode op.signExtendSourceMask dstWidth sources

theorem agreesWithLiterals_operandLiteral (table : RegisterTable) (regs : Nat → Nat)
    (src : List SourceOperand) : AgreesWithLiterals src (src.map (operandLiteral table regs)) := by
  intro i l hsrc
  rw [List.getElem?_map, hsrc]
  rfl

theorem mapM_literalIn {src : List SourceOperand} (h : ∀ s ∈ src, LutOperand s)
    (table : RegisterTable) (regs : Nat → Nat) :
    src.mapM (SourceOperand.literalIn table regs) = some (src.map (operandLiteral table regs)) := by
  induction src with
  | nil => rfl
  | cons s src ih =>
      have hs : s.literalIn table regs = some (operandLiteral table regs s) := by
        cases h s List.mem_cons_self <;> rfl
      rw [List.mapM_cons, hs, ih fun s' hs' => h s' (List.mem_cons_of_mem _ hs')]
      rfl

/-- A move of a literal gives its value. -/
theorem operationValue_mov (table : RegisterTable) (regs : Nat → Nat) (dstWidth : Nat)
    (l : Literal) (tag : Nat) (dst : DestinationOperand) :
    operationValue table regs dstWidth
        { opcode := .mov, tag := tag, dst := [dst], src := [.literal l] } =
      some (truncate (l.value : Int) dstWidth) := by
  have hsources : [SourceOperand.literal l].mapM (SourceOperand.literalIn table regs) =
      some [l] := by
    rw [List.mapM_cons, List.mapM_nil]
    rfl
  rw [operationValue, hsources, ← denote_false l, ← Nat.zero_testBit 0]
  rfl

theorem LutOperation.value_eq {op : Operation} {entries : List LutEntry}
    (h : LutOperation op entries) (table : RegisterTable) (regs : Nat → Nat) (dstWidth : Nat) :
    operationValue table regs dstWidth op =
      some (truncate (lutBits entries (op.src.map (operandLiteral table regs)) : Nat) dstWidth) := by
  rw [operationValue, mapM_literalIn h.operands, h.opcode]
  rfl

/-- The operands and columns of a lookup table. -/
def lutSize (src : List SourceOperand) (entries : List LutEntry) : Nat :=
  src.length + (entries.map fun entry => entry.sources.length).sum

/-- A lookup table after a rewrite that changes it exactly when `changed`. -/
structure Rewrites (op : Operation) (entries : List LutEntry) (op' : Operation)
    (entries' : List LutEntry) (changed : Bool) : Prop where
  lut : LutOperation op' entries'
  dst : op'.dst = op.dst
  value : ∀ table regs, lutBits entries' (op'.src.map (operandLiteral table regs)) =
    lutBits entries (op.src.map (operandLiteral table regs))
  smaller : changed = true → lutSize op'.src entries' < lutSize op.src entries
  unchanged : changed = false → op' = op ∧ entries' = entries

theorem Rewrites.refl {op : Operation} {entries : List LutEntry} (h : LutOperation op entries) :
    Rewrites op entries op entries false :=
  ⟨h, rfl, fun _ _ => rfl, nofun, fun _ => ⟨rfl, rfl⟩⟩

theorem Rewrites.size_le {op op' : Operation} {entries entries' : List LutEntry} {changed : Bool}
    (h : Rewrites op entries op' entries' changed) :
    lutSize op'.src entries' ≤ lutSize op.src entries := by
  cases changed with
  | true => exact Nat.le_of_lt (h.smaller rfl)
  | false =>
      obtain ⟨rfl, rfl⟩ := h.unchanged rfl
      exact Nat.le_refl _

theorem Rewrites.trans {op op' op'' : Operation} {entries entries' entries'' : List LutEntry}
    {changed changed' : Bool} (h : Rewrites op entries op' entries' changed)
    (h' : Rewrites op' entries' op'' entries'' changed') :
    Rewrites op entries op'' entries'' (changed || changed') := by
  refine ⟨h'.lut, h'.dst.trans h.dst, fun table regs => (h'.value table regs).trans
    (h.value table regs), fun hchanged => ?_, fun hchanged => ?_⟩
  · have hle := h.size_le
    have hle' := h'.size_le
    rcases (Bool.or_eq_true _ _).mp hchanged with hlt | hlt
    · have := h.smaller hlt
      omega
    · have := h'.smaller hlt
      omega
  · obtain ⟨hfirst, hsecond⟩ := Bool.or_eq_false_iff.mp hchanged
    obtain ⟨rfl, rfl⟩ := h.unchanged hfirst
    exact h'.unchanged hsecond

section

variable {op : Operation} {entries : List LutEntry}

/-- Entries that shrink one by one make the tables smaller together. -/
theorem sum_lengths_of_shrinks {src : List SourceOperand} {changed : LutEntry → Bool}
    {entries' : List LutEntry}
    (h : List.Forall₂ (fun entry entry' => Shrinks src (changed entry) entry entry')
      entries entries') :
    (entries'.map fun entry => entry.sources.length).sum
        ≤ (entries.map fun entry => entry.sources.length).sum ∧
      (entries.any changed = true → (entries'.map fun entry => entry.sources.length).sum
        < (entries.map fun entry => entry.sources.length).sum) ∧
      (entries.any changed = false → entries' = entries) := by
  induction h with
  | nil => exact ⟨Nat.le_refl _, nofun, fun _ => rfl⟩
  | cons hentry _ ih =>
      obtain ⟨hle, hlt, heq⟩ := ih
      have hlength := hentry.length_le
      simp only [List.map_cons, List.sum_cons, List.any_cons]
      refine ⟨by omega, fun hchanged => ?_, fun hchanged => ?_⟩
      · rcases (Bool.or_eq_true _ _).mp hchanged with hfirst | hrest
        · have := hentry.shorter hfirst
          omega
        · have := hlt hrest
          omega
      · obtain ⟨hfirst, hrest⟩ := Bool.or_eq_false_iff.mp hchanged
        rw [hentry.unchanged hfirst, heq hrest]

/-- Something that holds of all entries, and that shrinking keeps, holds of the new ones. -/
theorem forall_of_shrinks {src : List SourceOperand} {changed : LutEntry → Bool}
    {entries' : List LutEntry} {P : LutEntry → Prop}
    (h : List.Forall₂ (fun entry entry' => Shrinks src (changed entry) entry entry')
      entries entries')
    (hkeeps : ∀ entry ∈ entries, ∀ entry', Shrinks src (changed entry) entry entry' → P entry') :
    ∀ entry' ∈ entries', P entry' := by
  induction h with
  | nil => exact fun entry' hentry' => nomatch hentry'
  | cons hentry _ ih =>
      intro entry' hmem
      rcases List.mem_cons.mp hmem with rfl | hmem
      · exact hkeeps _ List.mem_cons_self _ hentry
      · exact ih (fun entry hentry => hkeeps entry (List.mem_cons_of_mem _ hentry)) entry' hmem

/-- A rewrite of the entries, one by one. -/
theorem rewrites_of_shrinks (h : LutOperation op entries) {changed : LutEntry → Bool}
    {entries' : List LutEntry}
    (hall : List.Forall₂ (fun entry entry' => Shrinks op.src (changed entry) entry entry')
      entries entries') :
    Rewrites op entries { op with opcode := .lut entries' } entries' (entries.any changed) := by
  obtain ⟨-, hlt, heq⟩ := sum_lengths_of_shrinks hall
  have hlut : LutOperation { op with opcode := .lut entries' } entries' :=
    ⟨rfl, h.mask, h.dst, h.operands,
      forall_of_shrinks hall fun entry hentry entry' hs =>
        hs.length_le.trans (h.length_le entry hentry),
      forall_of_shrinks hall fun entry hentry entry' hs source hsource =>
        h.inRange entry hentry source (hs.sources hsource),
      forall_of_shrinks hall fun entry hentry entry' hs => hs.table (h.constants entry hentry)⟩
  refine ⟨hlut, rfl, fun table regs => ?_, fun hchanged => ?_, fun hchanged => ?_⟩
  · exact lutBits_congr (hall.imp fun entry entry' hs =>
      hs.evaluate _ (agreesWithLiterals_operandLiteral table regs op.src))
  · exact Nat.add_lt_add_left (hlt hchanged) _
  · refine ⟨?_, heq hchanged⟩
    rw [heq hchanged, ← h.opcode]

/-- `forEachEntry`, when every entry shrinks. -/
theorem forEachEntry_spec (h : LutOperation op entries)
    {f : LutEntry → Except Failure (LutEntry × Bool)} {changed : LutEntry → Bool}
    (hf : ∀ entry ∈ entries, ∃ entry', f entry = .ok (entry', changed entry) ∧
      Shrinks op.src (changed entry) entry entry') :
    ∃ entries', forEachEntry op f =
        .ok ({ op with opcode := .lut entries' }, entries.any changed) ∧
      Rewrites op entries { op with opcode := .lut entries' } entries' (entries.any changed) ∧
      List.Forall₂ (fun entry entry' => Shrinks op.src (changed entry) entry entry')
        entries entries' := by
  obtain ⟨results, hok, hall⟩ : ∃ results, entries.mapM f = .ok results ∧ List.Forall₂
      (fun entry result => result.2 = changed entry ∧
        Shrinks op.src (changed entry) entry result.1) entries results :=
    mapM_succeeds fun entry hentry => by
      obtain ⟨entry', hok, hs⟩ := hf entry hentry
      exact ⟨_, hok, rfl, hs⟩
  have hentries : List.Forall₂ (fun entry entry' => Shrinks op.src (changed entry) entry entry')
      entries (results.map Prod.fst) :=
    List.forall₂_map_right_iff.mpr (hall.imp fun _ _ hs => hs.2)
  have hany : results.any Prod.snd = entries.any changed := by
    clear hok hentries hf h
    induction hall with
    | nil => rfl
    | cons hs _ ih => rw [List.any_cons, List.any_cons, hs.1, ih]
  refine ⟨results.map Prod.fst, ?_, rewrites_of_shrinks h hentries, hentries⟩
  simp only [forEachEntry, h.opcode, assert_of_true (beq_iff_eq.mpr h.dst), ok_bind, hok, hany,
    pure_eq_ok]

/-! ### Literal sources -/

/-- A bit of an operand can be read if it is known. -/
theorem LutOperation.readable (h : LutOperation op entries) {source : Nat × Nat}
    (hlt : source.1 < op.src.length) : ReadableSource op source := by
  have hat := List.getElem?_eq_getElem hlt
  have hoperand := h.operands _ (List.getElem_mem hlt)
  generalize hs : op.src[source.1] = s at hat hoperand
  cases hoperand with
  | register r =>
      refine ⟨?_, fun _ => ⟨r, hat⟩⟩
      simp only [literalValue, knownBit, hat]
  | literal l hpos hle hfits =>
      refine ⟨?_, fun hnone => ?_⟩
      · have hsign : op.shouldSignExtend source.1 = false := by
          rw [Operation.shouldSignExtend, h.mask, Nat.zero_testBit]
        simp only [literalValue, knownBit, hat, getLiteralBit, hsign, ok_bind,
          assert_of_true (decide_eq_true hpos), Bool.false_eq_true, if_false]
        by_cases hbit : source.2 < l.width
        · have htest : bitTest l.value source.2 = .ok (l.value.testBit source.2) :=
            if_pos (by unfold uint32Max; omega)
          rw [if_pos hbit, htest]
          rfl
        · -- Beyond its width a literal has no bits
          have hzero : l.value.testBit source.2 = false := Nat.testBit_lt_two_pow
            (Nat.lt_of_lt_of_le hfits (Nat.pow_le_pow_right (by decide) (by omega)))
          rw [if_neg hbit, hzero]
          rfl
      · rw [knownBit, hat] at hnone
        cases hnone

/-- The sources of the entries are registers. -/
def ReadsRegisters (src : List SourceOperand) (entries : List LutEntry) : Prop :=
  ∀ entry ∈ entries, ∀ source ∈ entry.sources, ∃ r, src[source.1]? = some (.register r)

theorem fixupLutOp_rewrites (h : LutOperation op entries) :
    ∃ entries', fixupLutOp op = .ok { op with opcode := .lut entries' } ∧
      Rewrites op entries { op with opcode := .lut entries' } entries' (readsLiteral op) ∧
      ReadsRegisters op.src entries' := by
  have hreadable : ∀ entry ∈ entries, ∀ source ∈ entry.sources, ReadableSource op source :=
    fun entry hentry source hsource => h.readable (h.inRange entry hentry source hsource)
  obtain ⟨entries', hok, hall⟩ := mapM_succeeds (l := entries) fun entry hentry => by
    obtain ⟨entry', hok, hfixed⟩ :=
      fixupLutEntry_ok (h.length_le entry hentry) (hreadable entry hentry)
    exact ⟨entry', hok, And.intro hentry hfixed⟩
  have hread : readsLiteral op = entries.any fun entry =>
      entry.sources.any fun source => (knownBit op source).isSome := by
    simp only [readsLiteral, h.opcode]
  refine ⟨entries', ?_, ?_, ?_⟩
  · simp only [fixupLutOp, h.opcode, hok, ok_bind, pure_eq_ok]
  · rw [hread]
    exact rewrites_of_shrinks h (hall.imp fun _ _ hfixed => hfixed.2.shrinks)
  · intro entry' hentry' source hsource
    obtain ⟨entry, hentry, hfixed⟩ : ∃ entry ∈ entries, FixedUpEntry op entry entry' := by
      clear hok hread
      obtain ⟨i, hi, rfl⟩ := List.getElem_of_mem hentry'
      have hget := hall.get (by rw [hall.length_eq]; exact hi) hi
      exact ⟨_, hget.1, hget.2⟩
    exact (hreadable entry hentry source (hfixed.sources hsource)).register
      (hfixed.unknown source hsource)

/-! ### Columns -/

theorem removeUnusedLutSourceRegisters_rewrites (h : LutOperation op entries) :
    ∃ entries' changed, removeUnusedLutSourceRegisters op =
        .ok ({ op with opcode := .lut entries' }, changed) ∧
      Rewrites op entries { op with opcode := .lut entries' } entries' changed ∧
      (ReadsRegisters op.src entries → ReadsRegisters op.src entries') ∧
      (changed = false → ∀ entry ∈ entries, ∀ c < entry.sources.length,
        TruthTable.DependsOn entry.table entry.sources.length c) := by
  obtain ⟨entries', hok, hrewrites, hall⟩ := forEachEntry_spec h fun entry _ =>
    removeCandidate_spec op.src entry fun c hc => List.mem_range.mp hc
  refine ⟨entries', _, hok, hrewrites, fun hreads => ?_, fun hchanged entry hentry c hc => ?_⟩
  · exact forall_of_shrinks hall fun entry hentry entry' hs source hsource =>
      hreads entry hentry source (hs.sources hsource)
  · have hnone := List.any_eq_false.mp hchanged entry hentry
    have hcandidate := List.any_eq_false.mp (Bool.eq_false_iff.mpr hnone) c (List.mem_range.mpr hc)
    simpa using hcandidate

theorem removeDuplicateLutColumns_rewrites (h : LutOperation op entries) :
    ∃ entries' changed, removeDuplicateLutColumns op =
        .ok ({ op with opcode := .lut entries' }, changed) ∧
      Rewrites op entries { op with opcode := .lut entries' } entries' changed ∧
      (changed = false → ∀ entry ∈ entries, entry.sources.Nodup) := by
  obtain ⟨entries', hok, hrewrites, -⟩ := forEachEntry_spec h fun entry _ =>
    removeDuplicateColumns_spec op.src entry
  refine ⟨entries', _, hok, hrewrites, fun hchanged entry hentry => ?_⟩
  have hnone := List.any_eq_false.mp hchanged entry hentry
  simpa using hnone

/-! ### Operands -/

/-- The entry after its operands have moved. -/
def renumbered (place : Nat → Nat) (entry : LutEntry) : LutEntry :=
  ⟨entry.sources.map fun source => (place source.1, source.2), entry.table⟩

theorem renumberEntry_eq {operandMap : Nat → Option Nat} {place : Nat → Nat} {entry : LutEntry}
    (h : ∀ source ∈ entry.sources, operandMap source.1 = some (place source.1)) :
    renumberEntry operandMap entry = .ok (renumbered place entry) := by
  unfold renumberEntry
  rw [mapM_eq_ok (g := fun source => (place source.1, source.2)) fun source hsource => by
    rw [h source hsource]]
  rfl

/-- Moving every operand that is used to a place where the same operand is. -/
theorem rewrites_of_renumbered (h : LutOperation op entries) {src : List SourceOperand}
    {place : Nat → Nat}
    (hplace : ∀ entry ∈ entries, ∀ source ∈ entry.sources,
      src[place source.1]? = op.src[source.1]?)
    (hsub : src ⊆ op.src) (hlt : src.length < op.src.length) :
    Rewrites op entries { op with opcode := .lut (entries.map (renumbered place)), src := src }
      (entries.map (renumbered place)) true := by
  have hlut : LutOperation
      { op with opcode := .lut (entries.map (renumbered place)), src := src }
      (entries.map (renumbered place)) := by
    refine ⟨rfl, h.mask, h.dst, fun s hs => h.operands s (hsub hs), fun entry' hentry' => ?_,
      fun entry' hentry' source' hsource' => ?_, fun entry' hentry' hnil => ?_⟩
    · obtain ⟨entry, hentry, rfl⟩ := List.mem_map.mp hentry'
      rw [renumbered, List.length_map]
      exact h.length_le entry hentry
    · obtain ⟨entry, hentry, rfl⟩ := List.mem_map.mp hentry'
      obtain ⟨source, hsource, rfl⟩ := List.mem_map.mp hsource'
      have hat := hplace entry hentry source hsource
      rw [List.getElem?_eq_getElem (h.inRange entry hentry source hsource)] at hat
      exact (List.getElem?_eq_some_iff.mp hat).1
    · obtain ⟨entry, hentry, rfl⟩ := List.mem_map.mp hentry'
      exact h.constants entry hentry (List.map_eq_nil_iff.mp hnil)
  refine ⟨hlut, rfl, fun table regs => lutBits_congr ?_, fun _ => ?_, nofun⟩
  · rw [List.forall₂_map_right_iff, List.forall₂_same]
    intro entry hentry
    rw [evaluate_eq_eval, evaluate_eq_eval, TruthTable.eval, TruthTable.eval, renumbered,
      TruthTable.row_map]
    refine congrArg entry.table.testBit (TruthTable.row_congr fun source hsource => ?_)
    rw [selectedBit, selectedBit, List.getD_eq_getElem?_getD, List.getD_eq_getElem?_getD,
      List.getElem?_map, List.getElem?_map, hplace entry hentry source hsource]
  · have hsum : ((entries.map (renumbered place)).map fun entry => entry.sources.length).sum
        = (entries.map fun entry => entry.sources.length).sum := by
      rw [List.map_map]
      refine congrArg List.sum (List.map_congr_left fun entry _ => ?_)
      rw [Function.comp_apply, renumbered, List.length_map]
    rw [lutSize, lutSize, hsum]
    exact Nat.add_lt_add_right hlt _

theorem mem_usedSourceIndices {i : Nat} : i ∈ usedSourceIndices entries ↔
    ∃ entry ∈ entries, ∃ source ∈ entry.sources, source.1 = i := by
  rw [usedSourceIndices, List.mem_insertionSort, List.mem_dedup, List.mem_flatMap]
  simp only [List.mem_map]

theorem nodup_usedSourceIndices (entries : List LutEntry) : (usedSourceIndices entries).Nodup :=
  (List.perm_insertionSort _ _).nodup_iff.mpr (List.nodup_dedup _)

/-- Every operand is used by some entry. -/
def AllReferenced (src : List SourceOperand) (entries : List LutEntry) : Prop :=
  ∀ i < src.length, ∃ entry ∈ entries, ∃ source ∈ entry.sources, source.1 = i

theorem LutOperation.subperm_range (h : LutOperation op entries) :
    (usedSourceIndices entries).Subperm (List.range op.src.length) := by
  refine List.subperm_of_subset (nodup_usedSourceIndices entries) fun i hi => ?_
  obtain ⟨entry, hentry, source, hsource, rfl⟩ := mem_usedSourceIndices.mp hi
  exact List.mem_range.mpr (h.inRange entry hentry source hsource)

/-- The operands that are left. -/
theorem mapM_sourceOperandAt {used : List Nat} (h : ∀ i ∈ used, i < op.src.length) :
    ∃ src, used.mapM (sourceOperandAt op) = .ok src ∧ src.length = used.length ∧
      ∀ (j i : Nat), used[j]? = some i → src[j]? = op.src[i]? := by
  obtain ⟨src, hok, hall⟩ : ∃ src, used.mapM (sourceOperandAt op) = .ok src ∧
      List.Forall₂ (fun i s => op.src[i]? = some s) used src :=
    mapM_succeeds fun i hi => by
      have hat := List.getElem?_eq_getElem (h i hi)
      exact ⟨_, by rw [sourceOperandAt, hat], hat⟩
  refine ⟨src, hok, hall.length_eq.symm, fun j i hj => ?_⟩
  obtain ⟨hlt, rfl⟩ := List.getElem?_eq_some_iff.mp hj
  have hlt' : j < src.length := hall.length_eq ▸ hlt
  rw [List.getElem?_eq_getElem hlt']
  exact (hall.get hlt hlt').symm

theorem removeUnusedLutSourceOperands_rewrites (h : LutOperation op entries) :
    ∃ op' entries' changed, removeUnusedLutSourceOperands op = .ok (op', changed) ∧
      Rewrites op entries op' entries' changed ∧ AllReferenced op'.src entries' ∧
      (ReadsRegisters op.src entries → ReadsRegisters op'.src entries') := by
  have hsubperm := h.subperm_range
  have hle := hsubperm.length_le
  rw [List.length_range] at hle
  have hused : ∀ i ∈ usedSourceIndices entries, i < op.src.length := fun i hi =>
    List.mem_range.mp (hsubperm.subset hi)
  simp only [removeUnusedLutSourceOperands, h.opcode, assert_of_true (beq_iff_eq.mpr h.dst),
    assert_of_true (decide_eq_true hle), ok_bind]
  by_cases hlt : (usedSourceIndices entries).length < op.src.length
  · rw [if_pos hlt]
    obtain ⟨src, hok, hlength, hat⟩ := mapM_sourceOperandAt hused
    have hmem : ∀ entry ∈ entries, ∀ source ∈ entry.sources,
        source.1 ∈ usedSourceIndices entries := fun entry hentry source hsource =>
      mem_usedSourceIndices.mpr ⟨entry, hentry, source, hsource, rfl⟩
    have hplace : ∀ entry ∈ entries, ∀ source ∈ entry.sources,
        src[(usedSourceIndices entries).idxOf source.1]? = op.src[source.1]? :=
      fun entry hentry source hsource =>
        hat _ _ (List.getElem?_idxOf (hmem entry hentry source hsource))
    have hentries : entries.mapM (renumberEntry fun index =>
        if index ∈ usedSourceIndices entries then some ((usedSourceIndices entries).idxOf index)
        else none) =
        .ok (entries.map (renumbered fun i => (usedSourceIndices entries).idxOf i)) :=
      mapM_eq_ok fun entry hentry => renumberEntry_eq fun source hsource =>
        if_pos (hmem entry hentry source hsource)
    have hsub : src ⊆ op.src := by
      intro s hs
      obtain ⟨j, hj⟩ := List.getElem?_of_mem hs
      have hjlt : j < (usedSourceIndices entries).length := by
        rw [← hlength]
        exact (List.getElem?_eq_some_iff.mp hj).1
      rw [hat j _ (List.getElem?_eq_getElem hjlt)] at hj
      exact List.mem_of_getElem? hj
    rw [hok, ok_bind, hentries]
    refine ⟨_, _, true, rfl, rewrites_of_renumbered h hplace hsub (by omega), fun j hj => ?_,
      fun hreads entry' hentry' source' hsource' => ?_⟩
    · rw [hlength] at hj
      obtain ⟨entry, hentry, source, hsource, heq⟩ :=
        mem_usedSourceIndices.mp (List.getElem_mem hj)
      refine ⟨_, List.mem_map_of_mem hentry, _, List.mem_map_of_mem hsource, ?_⟩
      show (usedSourceIndices entries).idxOf source.1 = j
      rw [heq, (nodup_usedSourceIndices entries).idxOf_getElem j hj]
    · obtain ⟨entry, hentry, rfl⟩ := List.mem_map.mp hentry'
      obtain ⟨source, hsource, rfl⟩ := List.mem_map.mp hsource'
      show ∃ r, src[_]? = _
      rw [hplace entry hentry source hsource]
      exact hreads entry hentry source hsource
  · rw [if_neg hlt]
    refine ⟨op, entries, false, rfl, Rewrites.refl h, fun i hi => ?_, id⟩
    have hperm := hsubperm.perm_of_length_le (by rw [List.length_range]; omega)
    exact mem_usedSourceIndices.mp (hperm.symm.subset (List.mem_range.mpr hi))

/-- Operands that are all used, as registers, are registers. -/
theorem registers_of_allReferenced {src : List SourceOperand} (hreferenced : AllReferenced src entries)
    (hreads : ReadsRegisters src entries) : ∀ s ∈ src, ∃ r, s = .register r := by
  intro s hs
  obtain ⟨i, hi, rfl⟩ := List.getElem_of_mem hs
  obtain ⟨entry, hentry, source, hsource, rfl⟩ := hreferenced i hi
  obtain ⟨r, hr⟩ := hreads entry hentry source hsource
  rw [List.getElem?_eq_getElem hi] at hr
  exact ⟨r, Option.some.inj hr⟩

/-- What the maps of `RemoveDuplicateLutSourceRegisters` say of the operands seen so far. -/
structure UniqueOf (src : List SourceOperand) (u : UniqueOperands) : Prop where
  nodup : u.registers.Nodup
  operands : u.newSrcOperands = u.registers.map .register
  length : u.operandIndexMap.length = src.length
  place : ∀ (i r : Nat), src[i]? = some (.register r) →
    ∃ j : Nat, u.operandIndexMap[i]? = some j ∧ u.registers[j]? = some r
  subset : u.newSrcOperands ⊆ src
  unique : u.duplicateFound = false → u.newSrcOperands = src
  length_le : u.newSrcOperands.length ≤ src.length
  duplicate : u.duplicateFound = true → u.newSrcOperands.length < src.length

theorem UniqueOf.visit {src : List SourceOperand} {u : UniqueOperands} (h : UniqueOf src u)
    (r : Nat) : ∃ u', u.visit (.register r) = .ok u' ∧ UniqueOf (src ++ [.register r]) u' := by
  have hplace : ∀ {indices registers : List Nat} {j : Nat}, indices.length = src.length →
      (∀ (i r : Nat), src[i]? = some (.register r) →
        ∃ j : Nat, indices[i]? = some j ∧ registers[j]? = some r) →
      registers[j]? = some r → ∀ (i r' : Nat), (src ++ [.register r])[i]? = some (.register r') →
        ∃ j' : Nat, (indices ++ [j])[i]? = some j' ∧ registers[j']? = some r' := by
    intro indices registers j hlength hold hj i r' hi
    rcases Nat.lt_or_ge i src.length with hlt | hge
    · rw [List.getElem?_append_left hlt] at hi
      rw [List.getElem?_append_left (by omega)]
      exact hold i r' hi
    · rw [List.getElem?_append_right hge, List.getElem?_singleton] at hi
      split at hi
      next heq =>
        cases hi
        refine ⟨j, ?_, hj⟩
        rw [List.getElem?_append_right (by omega), List.getElem?_singleton, if_pos (by omega)]
      next => exact nomatch hi
  have hlength : (src ++ [SourceOperand.register r]).length = src.length + 1 := by
    rw [List.length_append, List.length_singleton]
  simp only [UniqueOperands.visit, SourceOperand.register?]
  by_cases hmem : r ∈ u.registers
  · -- The register came up before
    rw [if_pos hmem]
    refine ⟨_, rfl, h.nodup, h.operands, ?_, hplace h.length h.place (List.getElem?_idxOf hmem),
      fun s hs => List.mem_append_left _ (h.subset hs), nofun, ?_, fun _ => ?_⟩
    · rw [List.length_append, List.length_singleton, hlength, h.length]
    · rw [hlength]
      exact Nat.le_succ_of_le h.length_le
    · rw [hlength]
      exact Nat.lt_succ_of_le h.length_le
  · rw [if_neg hmem]
    refine ⟨_, rfl, ?_, ?_, ?_, ?_, ?_, fun hnone => ?_, ?_, fun hsome => ?_⟩
    · rw [List.nodup_append]
      refine ⟨h.nodup, List.nodup_singleton r, fun a ha b hb heq => hmem ?_⟩
      obtain rfl : b = r := List.mem_singleton.mp hb
      exact heq ▸ ha
    · rw [List.map_append, List.map_singleton, h.operands]
    · rw [List.length_append, List.length_singleton, hlength, h.length]
    · refine hplace h.length (fun i r' hi => ?_) List.getElem?_concat_length
      obtain ⟨j, hj, hr'⟩ := h.place i r' hi
      exact ⟨j, hj, by rw [List.getElem?_append_left (List.getElem?_eq_some_iff.mp hr').1, hr']⟩
    · exact List.append_subset.mpr ⟨fun s hs => List.mem_append_left _ (h.subset hs),
        List.subset_append_right _ _⟩
    · show u.newSrcOperands ++ [_] = _
      rw [h.unique hnone]
    · rw [List.length_append, List.length_singleton, hlength]
      exact Nat.succ_le_succ h.length_le
    · rw [List.length_append, List.length_singleton, hlength]
      exact Nat.succ_lt_succ (h.duplicate hsome)

theorem foldlM_visit {src : List SourceOperand} (h : ∀ s ∈ src, ∃ r, s = .register r) :
    ∃ u, src.foldlM UniqueOperands.visit {} = .ok u ∧ UniqueOf src u := by
  induction src using List.reverseRecOn with
  | nil =>
      exact ⟨{}, rfl, .nil, rfl, rfl, nofun, List.nil_subset _, fun _ => rfl, Nat.le_refl _, nofun⟩
  | append_singleton src s ih =>
      obtain ⟨u, hok, hu⟩ := ih fun s' hs' => h s' (List.mem_append_left _ hs')
      obtain ⟨r, rfl⟩ := h s (List.mem_append_right _ (List.mem_singleton_self s))
      obtain ⟨u', hok', hu'⟩ := hu.visit r
      refine ⟨u', ?_, hu'⟩
      rw [List.foldlM_append, hok, ok_bind, List.foldlM_cons, hok', ok_bind, List.foldlM_nil,
        pure_eq_ok]

theorem removeDuplicateLutSourceRegisters_rewrites (h : LutOperation op entries)
    (hregisters : ∀ s ∈ op.src, ∃ r, s = .register r) :
    ∃ op' entries' changed, removeDuplicateLutSourceRegisters op = .ok (op', changed) ∧
      Rewrites op entries op' entries' changed ∧ (changed = false → op.src.Nodup) := by
  obtain ⟨u, hok, hu⟩ := foldlM_visit hregisters
  simp only [removeDuplicateLutSourceRegisters, h.opcode, assert_of_true (beq_iff_eq.mpr h.dst),
    assert_of_true (beq_iff_eq.mpr h.mask), ok_bind, hok]
  have hnodup : u.newSrcOperands.Nodup := by
    rw [hu.operands]
    exact hu.nodup.map fun _ _ heq => by injection heq
  cases hdup : u.duplicateFound with
  | false =>
      rw [if_neg Bool.false_ne_true]
      exact ⟨op, entries, false, rfl, Rewrites.refl h, fun _ => hu.unique hdup ▸ hnodup⟩
  | true =>
      rw [if_pos rfl]
      have hat : ∀ entry ∈ entries, ∀ source ∈ entry.sources, ∃ j : Nat,
          u.operandIndexMap[source.1]? = some j ∧ u.newSrcOperands[j]? = op.src[source.1]? := by
        intro entry hentry source hsource
        have hlt := h.inRange entry hentry source hsource
        obtain ⟨r, hr⟩ := hregisters _ (List.getElem_mem hlt)
        have hsrc := List.getElem?_eq_getElem hlt
        rw [hr] at hsrc
        obtain ⟨j, hj, hreg⟩ := hu.place _ _ hsrc
        refine ⟨j, hj, ?_⟩
        rw [hu.operands, List.getElem?_map, hreg, hsrc]
        rfl
      have hentries : entries.mapM (renumberEntry fun index => u.operandIndexMap[index]?) =
          .ok (entries.map (renumbered fun i => u.operandIndexMap[i]?.getD 0)) :=
        mapM_eq_ok fun entry hentry => renumberEntry_eq fun source hsource => by
          obtain ⟨j, hj, -⟩ := hat entry hentry source hsource
          rw [hj]
          rfl
      rw [hentries]
      refine ⟨_, _, true, rfl, rewrites_of_renumbered h (fun entry hentry source hsource => ?_)
        hu.subset (hu.duplicate hdup), nofun⟩
      obtain ⟨j, hj, hsrc⟩ := hat entry hentry source hsource
      rw [hj]
      exact hsrc

/-! ### Constants -/

/-- The loop of `DetectConstantLut`. -/
theorem foldlM_addKnownBit {l : List LutEntry}
    (h : ∀ entry ∈ l, entry.sources = [] → entry.table ≤ 1) (values : List Literal) :
    ∀ (k : Nat) (known : Bool × Nat), ∃ value, (l.zipIdx k).foldlM addKnownBit known =
        .ok (known.1 && l.all fun entry => entry.sources.isEmpty, value) ∧
      ((l.all fun entry => entry.sources.isEmpty) = true → value = (l.zipIdx k).foldl
        (fun (result : Nat) (p : LutEntry × Nat) =>
          if p.1.evaluate values then result ||| 2 ^ p.2 else result) known.2) := by
  induction l with
  | nil => exact fun k known => ⟨known.2, by simp, fun _ => rfl⟩
  | cons entry l ih =>
      intro k known
      rw [List.zipIdx_cons, List.foldlM_cons, List.foldl_cons, List.all_cons]
      have hrest := ih fun e he => h e (List.mem_cons_of_mem _ he)
      cases hsources : entry.sources with
      | cons source sources =>
          have hstep : addKnownBit known (entry, k) = .ok (false, known.2) := by
            rw [addKnownBit, hsources, if_neg (by simp)]
          rw [hstep, ok_bind]
          obtain ⟨value, hok, -⟩ := hrest (k + 1) (false, known.2)
          refine ⟨value, ?_, fun hall => ?_⟩
          · rw [hok]
            simp
          · simp at hall
      | nil =>
          have heval : entry.evaluate values = entry.table.testBit 0 := by
            rw [evaluate_eq_eval, hsources]
            rfl
          have hle := h entry List.mem_cons_self hsources
          have hstep : addKnownBit known (entry, k) = .ok (known.1,
              if entry.evaluate values then known.2 ||| 2 ^ k else known.2) := by
            rw [addKnownBit, heval]
            dsimp only
            rw [hsources, if_pos List.length_nil]
            rcases Nat.le_one_iff_eq_zero_or_eq_one.mp hle with hzero | hone
            · rw [hzero]
              rfl
            · rw [hone]
              rfl
          rw [hstep, ok_bind]
          obtain ⟨value, hok, hvalue⟩ := hrest (k + 1) (known.1,
            if entry.evaluate values then known.2 ||| 2 ^ k else known.2)
          exact ⟨value, hok, hvalue⟩

theorem detectConstantLut_spec (h : LutOperation op entries) :
    ∃ op' changed, detectConstantLut op = .ok (op', changed) ∧
      (changed = false → op' = op) ∧
      (changed = true → op'.dst = op.dst ∧ (∃ l, op'.opcode = .mov ∧ op'.src = [.literal l]) ∧
        ∀ table regs dstWidth,
          operationValue table regs dstWidth op' = operationValue table regs dstWidth op) := by
  obtain ⟨dst, hdst⟩ := List.length_eq_one_iff.mp h.dst
  simp only [detectConstantLut, h.opcode, hdst]
  cases hall : entries.all fun entry => entry.sources.isEmpty with
  | false =>
      obtain ⟨value, hok, -⟩ := foldlM_addKnownBit h.constants [] 0 (true, 0)
      rw [hall] at hok
      rw [hok]
      exact ⟨op, false, rfl, fun _ => rfl, nofun⟩
  | true =>
      obtain ⟨value, hok, -⟩ := foldlM_addKnownBit h.constants [] 0 (true, 0)
      have hfound := hok
      rw [hall] at hok
      rw [hok]
      refine ⟨_, true, rfl, nofun, fun _ => ⟨rfl, ⟨_, rfl, rfl⟩, fun table regs dstWidth => ?_⟩⟩
      -- The value does not depend on the operands
      obtain ⟨value', hok', hvalue'⟩ := foldlM_addKnownBit h.constants
        (op.src.map (operandLiteral table regs)) 0 (true, 0)
      have hsame : value = value' := by
        have heq := Except.ok.inj (hfound.symm.trans hok')
        exact (Prod.mk.inj heq).2
      have hbits : value = lutBits entries (op.src.map (operandLiteral table regs)) :=
        hsame.trans (hvalue' hall)
      rw [h.value_eq, ← hbits]
      exact operationValue_mov table regs dstWidth ⟨value, getMpWidth value⟩ op.tag dst

end

/-! ## The loop -/

/-- None of the six rewrites applies. -/
structure Canonical (src : List SourceOperand) (entries : List LutEntry) : Prop where
  registers : ∀ s ∈ src, ∃ r, s = .register r
  distinct : src.Nodup
  referenced : AllReferenced src entries
  inRange : ∀ entry ∈ entries, ∀ source ∈ entry.sources, source.1 < src.length
  columns : ∀ entry ∈ entries, entry.sources.Nodup
  affects : ∀ entry ∈ entries, ∀ c < entry.sources.length,
    TruthTable.DependsOn entry.table entry.sources.length c

section

variable {op : Operation} {entries : List LutEntry}

/-- Before operands for the same register are merged, all operands are registers. -/
theorem fixupLutSources_spec (h : LutOperation op entries) :
    ∃ op' entries' changed, fixupLutSources op = .ok (op', changed) ∧
      Rewrites op entries op' entries' changed ∧ AllReferenced op'.src entries' ∧
      (∀ s ∈ op'.src, ∃ r, s = .register r) ∧
      (changed = false → ∀ entry ∈ entries, ∀ c < entry.sources.length,
        TruthTable.DependsOn entry.table entry.sources.length c) := by
  obtain ⟨entries₁, hok₁, hrewrites₁, hreads₁⟩ := fixupLutOp_rewrites h
  obtain ⟨entries₂, changed₂, hok₂, hrewrites₂, hreads₂, haffects⟩ :=
    removeUnusedLutSourceRegisters_rewrites hrewrites₁.lut
  obtain ⟨op₃, entries₃, changed₃, hok₃, hrewrites₃, hreferenced, hreads₃⟩ :=
    removeUnusedLutSourceOperands_rewrites hrewrites₂.lut
  refine ⟨op₃, entries₃, _, ?_, (hrewrites₁.trans hrewrites₂).trans hrewrites₃, hreferenced,
    registers_of_allReferenced hreferenced (hreads₃ (hreads₂ hreads₁)), fun hchanged => ?_⟩
  · simp only [fixupLutSources, hok₁, hok₂, hok₃, ok_bind, pure_eq_ok]
  · obtain ⟨hfirst, -⟩ := Bool.or_eq_false_iff.mp hchanged
    obtain ⟨hread, hremoved⟩ := Bool.or_eq_false_iff.mp hfirst
    have hsame := (hrewrites₁.unchanged hread).2
    exact hsame ▸ haffects hremoved

/-- An iteration makes the table smaller, or a move of a literal, or leaves it and then it
    is canonical. -/
theorem fixupLutRound_spec (h : LutOperation op entries) :
    ∃ op' progress, fixupLutRound op = .ok (op', progress) ∧ op'.dst = op.dst ∧
      (∀ table regs dstWidth,
        operationValue table regs dstWidth op' = operationValue table regs dstWidth op) ∧
      ((∃ l, op'.opcode = .mov ∧ op'.src = [.literal l]) ∨
        ∃ entries', LutOperation op' entries' ∧
          (progress = true → lutSize op'.src entries' < lutSize op.src entries) ∧
          (progress = false → op' = op ∧ Canonical op.src entries)) := by
  obtain ⟨op₁, entries₁, changed₁, hok₁, hrewrites₁, hreferenced, hregisters, haffects⟩ :=
    fixupLutSources_spec h
  obtain ⟨op₂, entries₂, changed₂, hok₂, hrewrites₂, hdistinct⟩ :=
    removeDuplicateLutSourceRegisters_rewrites hrewrites₁.lut hregisters
  obtain ⟨entries₃, changed₃, hok₃, hrewrites₃, hcolumns⟩ :=
    removeDuplicateLutColumns_rewrites hrewrites₂.lut
  obtain ⟨op₄, constant, hok₄, hsame, hmov⟩ := detectConstantLut_spec hrewrites₃.lut
  have hrewrites := (hrewrites₁.trans hrewrites₂).trans hrewrites₃
  have hvalue : ∀ table regs dstWidth,
      operationValue table regs dstWidth { op₂ with opcode := .lut entries₃ } =
        operationValue table regs dstWidth op := fun table regs dstWidth => by
    rw [hrewrites.lut.value_eq, h.value_eq, hrewrites.value]
  have hround : fixupLutRound op = .ok (op₄, changed₁ || changed₂ || changed₃ || constant) := by
    simp only [fixupLutRound, hok₁, hok₂, hok₃, hok₄, ok_bind, pure_eq_ok]
  refine ⟨op₄, _, hround, ?_⟩
  cases constant with
  | true =>
      obtain ⟨hdst, hlit, hval⟩ := hmov rfl
      exact ⟨hdst.trans hrewrites.dst, fun table regs dstWidth =>
        (hval table regs dstWidth).trans (hvalue table regs dstWidth), .inl hlit⟩
  | false =>
      obtain rfl := hsame rfl
      rw [Bool.or_false]
      refine ⟨hrewrites.dst, hvalue, .inr ⟨entries₃, hrewrites.lut, hrewrites.smaller,
        fun hnone => ?_⟩⟩
      obtain ⟨hop, hentries⟩ := hrewrites.unchanged hnone
      refine ⟨hop, ?_⟩
      -- No rewrite changed the operation, so all of them speak of the same one
      obtain ⟨hnone, hnone₃⟩ := Bool.or_eq_false_iff.mp hnone
      obtain ⟨hnone₁, hnone₂⟩ := Bool.or_eq_false_iff.mp hnone
      obtain ⟨rfl, rfl⟩ := hrewrites₁.unchanged hnone₁
      obtain ⟨rfl, rfl⟩ := hrewrites₂.unchanged hnone₂
      exact ⟨hregisters, hdistinct hnone₂, hreferenced, h.inRange, hcolumns hnone₃,
        haffects hnone₁⟩

/-- The iterations of the loop: from one to the next while there is progress. -/
inductive Iterates (op : Operation) : Operation → Prop
  | refl : Iterates op op
  | round {op₁ op₂ : Operation} (h : Iterates op op₁)
      (hround : fixupLutRound op₁ = .ok (op₂, true)) (hlut : isLut op₂ = true) : Iterates op op₂

/-- Every iteration starts with a lookup table as the compiler makes them. -/
theorem Iterates.lutOperation (h : LutOperation op entries) {op' : Operation}
    (hiterates : Iterates op op') : ∃ entries', LutOperation op' entries' := by
  induction hiterates with
  | refl => exact ⟨entries, h⟩
  | round _ hround hlut ih =>
      obtain ⟨entries₁, h₁⟩ := ih
      obtain ⟨op', progress, hok, -, -, hcases⟩ := fixupLutRound_spec h₁
      obtain ⟨rfl, rfl⟩ := Prod.mk.inj (Except.ok.inj (hok.symm.trans hround))
      rcases hcases with ⟨l, hmov, -⟩ | ⟨entries', h', -⟩
      · rw [isLut, hmov] at hlut
        exact nomatch hlut
      · exact ⟨entries', h'⟩

/-- What `FixupLutOps` makes of a lookup table. -/
structure FixedUp (op op' : Operation) : Prop where
  dst : op'.dst = op.dst
  value : ∀ table regs dstWidth,
    operationValue table regs dstWidth op' = operationValue table regs dstWidth op
  canonical : (∃ entries', LutOperation op' entries' ∧ Canonical op'.src entries') ∨
    ∃ l, op'.opcode = .mov ∧ op'.src = [.literal l]
  /-- No iteration meets a literal when operands are merged. -/
  merges : ∀ op₁, Iterates op op₁ → ∃ op₂ changed, fixupLutSources op₁ = .ok (op₂, changed) ∧
    ∀ s ∈ op₂.src, ∃ r, s = .register r

/-- The loop ends when there is more fuel than operands and columns. -/
theorem fixupLutLoop_ends (fuel : Nat) : ∀ {op : Operation} {entries : List LutEntry},
    LutOperation op entries → lutSize op.src entries < fuel →
      ∃ op' changed, fixupLutLoop fuel op = some (.ok (op', changed)) ∧ op'.dst = op.dst ∧
        (∀ table regs dstWidth,
          operationValue table regs dstWidth op' = operationValue table regs dstWidth op) ∧
        ((∃ entries', LutOperation op' entries' ∧ Canonical op'.src entries') ∨
          ∃ l, op'.opcode = .mov ∧ op'.src = [.literal l]) := by
  induction fuel with
  | zero => exact fun _ hlt => absurd hlt (Nat.not_lt_zero _)
  | succ fuel ih =>
      intro op entries h hlt
      obtain ⟨op₁, progress, hok, hdst, hvalue, hcases⟩ := fixupLutRound_spec h
      simp only [fixupLutLoop, hok]
      rcases hcases with ⟨l, hmov, hsrc⟩ | ⟨entries₁, h₁, hsmaller, hcanonical⟩
      · have hlut : isLut op₁ = false := by rw [isLut, hmov]
        rw [hlut, Bool.not_false, Bool.or_true, if_pos rfl]
        exact ⟨op₁, progress, rfl, hdst, hvalue, .inr ⟨l, hmov, hsrc⟩⟩
      · have hlut : isLut op₁ = true := by rw [isLut, h₁.opcode]
        rw [hlut, Bool.not_true, Bool.or_false]
        cases progress with
        | false =>
            rw [Bool.not_false, if_pos rfl]
            obtain ⟨rfl, hcanon⟩ := hcanonical rfl
            exact ⟨op₁, false, rfl, rfl, hvalue, .inl ⟨entries, h, hcanon⟩⟩
        | true =>
            rw [Bool.not_true, if_neg Bool.false_ne_true]
            have hsize := hsmaller rfl
            obtain ⟨op₂, changed, hloop, hdst₂, hvalue₂, hend⟩ := ih h₁ (by omega)
            rw [hloop]
            exact ⟨op₂, true, rfl, hdst₂.trans hdst, fun table regs dstWidth =>
              (hvalue₂ table regs dstWidth).trans (hvalue table regs dstWidth), hend⟩

theorem fixupLutLoop_fixedUp (fuel : Nat) (h : LutOperation op entries)
    (hfuel : lutSize op.src entries < fuel) :
    ∃ op' changed, fixupLutLoop fuel op = some (.ok (op', changed)) ∧ FixedUp op op' := by
  obtain ⟨op', changed, hok, hdst, hvalue, hend⟩ := fixupLutLoop_ends fuel h hfuel
  refine ⟨op', changed, hok, hdst, hvalue, hend, fun op₁ hiterates => ?_⟩
  obtain ⟨entries₁, h₁⟩ := hiterates.lutOperation h
  obtain ⟨op₂, entries₂, changed₂, hok₂, -, -, hregisters, -⟩ := fixupLutSources_spec h₁
  exact ⟨op₂, changed₂, hok₂, hregisters⟩

end

/-- `FixupLutOps` ends on every block, leaves the other operations alone, and brings every
    lookup table into an equivalent canonical form, or into a move of its constant value;
    operands for the same register are merged only when no operand is a literal. -/
theorem fixupLutOps_canonical {ops : List Operation}
    (h : ∀ op ∈ ops, isLut op = true → ∃ entries, LutOperation op entries) :
    ∃ bound, ∀ fuel, bound ≤ fuel → ∃ ops' didChangeIR,
      fixupLutOps fuel ops = some (.ok (ops', didChangeIR)) ∧
      List.Forall₂ (fun op op' =>
        (isLut op = true → FixedUp op op') ∧ (isLut op = false → op' = op)) ops ops' := by
  induction ops with
  | nil => exact ⟨0, fun fuel _ => ⟨[], false, rfl, .nil⟩⟩
  | cons op ops ih =>
      obtain ⟨bound, hbound⟩ := ih fun op' hop' => h op' (List.mem_cons_of_mem _ hop')
      cases hlut : isLut op with
      | false =>
          refine ⟨bound, fun fuel hfuel => ?_⟩
          obtain ⟨ops', didChangeIR, hok, hall⟩ := hbound fuel hfuel
          refine ⟨op :: ops', didChangeIR, ?_, .cons ⟨?_, fun _ => rfl⟩ hall⟩
          · simp only [fixupLutOps, hlut, Bool.false_eq_true, if_false, hok]
            rfl
          · exact fun htrue => absurd (hlut.symm.trans htrue) Bool.false_ne_true
      | true =>
          obtain ⟨entries, hop⟩ := h op List.mem_cons_self hlut
          refine ⟨max bound (lutSize op.src entries + 1), fun fuel hfuel => ?_⟩
          obtain ⟨op', changed, hok, hfixed⟩ := fixupLutLoop_fixedUp fuel hop (by omega)
          obtain ⟨ops', didChangeIR, hrest, hall⟩ := hbound fuel (by omega)
          refine ⟨op' :: ops', changed || didChangeIR, ?_, .cons ⟨fun _ => hfixed, ?_⟩ hall⟩
          · simp only [fixupLutOps, hlut, if_true, hok, hrest]
            rfl
          · exact fun hfalse => absurd (hlut.symm.trans hfalse) Bool.false_ne_true.symm

/-- A lookup table with two operands for one register, and a bit of a literal. -/
def sharedRegisterLut : Operation where
  opcode := .lut [⟨[(0, 0), (1, 0), (2, 1)], 0x96⟩, ⟨[(0, 0), (2, 0)], 0x6⟩, ⟨[], 1⟩]
  src := [.register 0, .register 0, .literal ⟨2, 2⟩]
  dst := [.register 1]

theorem fixupLutOps_canonical_sharedRegisterLut :
    ∃ bound, ∀ fuel, bound ≤ fuel → ∃ ops' didChangeIR,
      fixupLutOps fuel [sharedRegisterLut] = some (.ok (ops', didChangeIR)) ∧
      List.Forall₂ (fun op op' =>
        (isLut op = true → FixedUp op op') ∧ (isLut op = false → op' = op))
        [sharedRegisterLut] ops' := by
  refine fixupLutOps_canonical fun op hop _ => ?_
  obtain rfl := List.mem_singleton.mp hop
  refine ⟨_, rfl, rfl, rfl, fun s hs => ?_, by decide, by decide, by decide⟩
  simp only [sharedRegisterLut, List.mem_cons, List.not_mem_nil, or_false] at hs
  rcases hs with rfl | rfl | rfl
  · exact .register 0
  · exact .register 0
  · exact .literal ⟨2, 2⟩ (by decide) (by decide) (by decide)

/-- The literal is folded into the tables, and the columns for the register into one. -/
example : (fixupLutOps 8 [sharedRegisterLut]).map (·.toOption.map (·.1.map fun op =>
    (op.opcode, op.src))) =
    some (some [(.lut [⟨[], 1⟩, ⟨[(0, 0)], 2⟩, ⟨[], 1⟩], [.register 0])]) := by
  decide +kernel

end Kanagawa.Optimize
