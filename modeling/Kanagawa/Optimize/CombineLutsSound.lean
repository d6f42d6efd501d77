/-
  Kanagawa.Optimize.CombineLutsSound

  What `CombineLuts` keeps of the value of an operation.

  A row of the new table stands for a row of the original one: the bits of the
  operand in between are what the producing table gives for the bits of its own
  registers.  So the new table computes the original one wherever the operand
  holds the result of the operation that produces it.  What is lost is lost when
  the two operations are made into tables.
-/
import Kanagawa.Optimize.CombineLuts
import Kanagawa.Optimize.LowerToLutSound
import Kanagawa.Optimize.LutEquivalence

namespace Kanagawa.Optimize

open IR Lib Lib.Bits Lib.Except

/-! ## Operations as lookup tables -/

/-- The table of an entry without columns is a bit. -/
def ConstantBit (entry : LutEntry) : Prop := entry.sources = [] → entry.table ≤ 1

theorem constantBit_buildTable (sources : List (Nat × Nat)) (row : Nat → Bool) :
    ConstantBit ⟨sources, buildTable (2 ^ sources.length) row⟩ := by
  intro hnil
  obtain rfl : sources = [] := hnil
  refine Nat.le_of_lt_succ (Nat.lt_pow_two_of_testBit (n := 1) _ fun c hc => ?_)
  rw [testBit_buildTable, List.length_nil, decide_eq_false (by omega), Bool.false_and]

theorem constantBit_of_sources {entry : LutEntry} (h : entry.sources ≠ []) : ConstantBit entry :=
  fun hnil => absurd hnil h

section

variable {table : RegisterTable} {op : Operation} {d : Nat} {entries : List LutEntry}

theorem pointwise_constantBit {inputTable : Nat}
    (h : convertPointwiseOpToLut table op inputTable d = .ok entries) :
    ∀ entry ∈ entries, ConstantBit entry := by
  intro entry hentry
  simp only [convertPointwiseOpToLut, bind_eq_ok_iff] at h
  obtain ⟨_, -, h⟩ := h
  obtain ⟨j, -, hj⟩ := mem_of_mapM h hentry
  simp only [pointwiseEntry, bind_eq_ok_iff, pure_eq_ok, Except.ok.injEq] at hj
  obtain ⟨descs, -, rfl⟩ := hj
  exact constantBit_buildTable _ _

theorem shiftEntry_constantBit {srcWidth : Nat} {bit? : Option Nat} {entry : LutEntry}
    (h : shiftEntry srcWidth bit? = .ok entry) : ConstantBit entry := by
  cases bit? with
  | none =>
      obtain rfl := Except.ok.inj h
      exact fun _ => Nat.zero_le 1
  | some bit =>
      simp only [shiftEntry, bind_eq_ok_iff, pure_eq_ok, Except.ok.injEq] at h
      obtain ⟨_, -, rfl⟩ := h
      exact constantBit_of_sources (List.cons_ne_nil _ _)

theorem shift_constantBit {type : BinaryOpType}
    (h : convertShiftOpToLut table op type d = .ok (some entries)) :
    ∀ entry ∈ entries, ConstantBit entry := by
  intro entry hentry
  simp only [convertShiftOpToLut, bind_eq_ok_iff] at h
  obtain ⟨_, -, h⟩ := h
  split at h
  · cases h
  · simp only [bind_eq_ok_iff] at h
    obtain ⟨_, -, h⟩ := h
    obtain ⟨entries', hentries, hsome⟩ := map_eq_ok h
    cases hsome
    obtain ⟨j, -, hj⟩ := mem_of_mapM hentries hentry
    exact shiftEntry_constantBit hj
  · cases h
  · cases h

theorem tabulated_constantBit {type : BinaryOpType}
    (h : convertBinaryOpToLut table op type d = .ok (some entries)) :
    ∀ entry ∈ entries, ConstantBit entry := by
  intro entry hentry
  rw [convertBinaryOpToLut] at h
  split at h
  · simp only [bind_eq_ok_iff] at h
    obtain ⟨_, -, resultTable, hresults, h⟩ := h
    obtain ⟨entries', hentries, hsome⟩ := map_eq_ok h
    cases hsome
    obtain ⟨j, -, hj⟩ := mem_of_mapM hentries hentry
    have hsize : resultTable.length = 2 ^ (registerBits table op.src 0).length := by
      rw [length_registerBits, ← (mapM_related hresults).length_eq, List.length_range]
    rw [resultEntry_eq hj, hsize]
    exact constantBit_buildTable _ _
  · cases h

theorem select_constantBit (h : convertSelectOpToLut table op d = .ok (some entries)) :
    ∀ entry ∈ entries, ConstantBit entry := by
  intro entry hentry
  rw [convertSelectOpToLut] at h
  split at h
  · simp only [bind_eq_ok_iff] at h
    obtain ⟨_, -, _, -, h⟩ := h
    have hall := convertBits_spec h
    obtain ⟨i, hi, rfl⟩ := List.getElem_of_mem hentry
    have hj := hall.get (by rw [hall.length_eq]; exact hi) hi
    simp only [List.get_eq_getElem, selectEntry, bind_eq_ok_iff] at hj
    obtain ⟨descs, -, hj⟩ := hj
    split at hj
    · cases hj
    · rw [pure_eq_ok, Except.ok.injEq, Option.some.injEq] at hj
      rw [← hj]
      exact constantBit_buildTable _ _
  · cases h
  · cases h

theorem gather_constantBit {gatherEntries : List GatherEntry}
    (h : convertGatherOpToLut op gatherEntries d = .ok entries) :
    ∀ entry ∈ entries, ConstantBit entry := by
  simp only [convertGatherOpToLut, bind_eq_ok_iff] at h
  obtain ⟨_, -, h⟩ := h
  refine foldlM_preserves (fun entries => ∀ entry ∈ entries, ConstantBit entry)
    (fun b _ entries entries' hentries hstep entry hentry => ?_) (fun entry hentry => ?_) h
  · simp only [gatherStep, bind_eq_ok_iff, pure_eq_ok, Except.ok.injEq] at hstep
    obtain ⟨_, -, new, hnew, rfl⟩ := hstep
    rcases List.mem_or_eq_of_mem_set hentry with hmem | rfl
    · exact hentries entry hmem
    · rw [gatherLutEntry] at hnew
      split at hnew
      · simp only [bind_eq_ok_iff, pure_eq_ok, Except.ok.injEq] at hnew
        obtain ⟨value, -, rfl⟩ := hnew
        exact fun _ => Bool.toNat_le value
      · obtain rfl := Except.ok.inj hnew
        exact constantBit_of_sources (List.cons_ne_nil _ _)
  · rw [List.eq_of_mem_replicate hentry]
    exact fun _ => Nat.zero_le 1

theorem binaryOpToLut_constantBit {type : BinaryOpType}
    (h : binaryOpToLut table op type d = .ok (some entries)) :
    ∀ entry ∈ entries, ConstantBit entry := by
  have hpointwise : ∀ {inputTable : Nat},
      some <$> convertPointwiseOpToLut table op inputTable d = .ok (some entries) →
        ∀ entry ∈ entries, ConstantBit entry := by
    intro inputTable h
    obtain ⟨entries', hentries, hsome⟩ := map_eq_ok h
    cases hsome
    exact pointwise_constantBit hentries
  simp only [binaryOpToLut, bind_eq_ok_iff] at h
  obtain ⟨_, -, h⟩ := h
  cases type with
  | and | or | xor => exact hpointwise h
  | shl | shr =>
      simp only [bind_eq_ok_iff] at h
      obtain ⟨shifted, hshifted, h⟩ := h
      cases shifted with
      | some entries' =>
          cases h
          exact shift_constantBit hshifted
      | none => exact tabulated_constantBit h
  | _ => exact tabulated_constantBit h

/-- A conversion gives entries whose tables are bits where there are no columns. -/
theorem convertToLut_constantBit (hlut : ∀ entries, op.opcode ≠ .lut entries)
    (h : convertToLut table op d = .ok (some entries)) : ∀ entry ∈ entries, ConstantBit entry := by
  have hpointwise : ∀ {inputTable : Nat},
      some <$> convertPointwiseOpToLut table op inputTable d = .ok (some entries) →
        ∀ entry ∈ entries, ConstantBit entry := by
    intro inputTable h
    obtain ⟨entries', hentries, hsome⟩ := map_eq_ok h
    cases hsome
    exact pointwise_constantBit hentries
  unfold convertToLut at h
  split at h
  · simp only [bind_eq_ok_iff] at h
    obtain ⟨_, -, h⟩ := h
    exact hpointwise h
  · simp only [bind_eq_ok_iff] at h
    obtain ⟨_, -, h⟩ := h
    exact hpointwise h
  · simp only [bind_eq_ok_iff] at h
    obtain ⟨_, -, _, -, h⟩ := h
    exact hpointwise h
  · exact binaryOpToLut_constantBit h
  · exact select_constantBit h
  · obtain ⟨entries', hentries, hsome⟩ := map_eq_ok h
    cases hsome
    exact gather_constantBit hentries
  next entries' hop => exact absurd hop (hlut entries')
  · exact nomatch h

end

/-- An operation that `LowerToLut` makes into a lookup table of registers: one it converts, or
    a lookup table. -/
inductive LutConvertible (table : RegisterTable) (op : Operation) (dst : DestinationOperand) :
    Prop
  | lowered (hshape : LoweringShape table op dst)
  | lut (entries : List LutEntry) (hop : op.opcode = .lut entries) (hdst : op.dst = [dst])
      (hsrc : ∀ s ∈ op.src, SourceShape table s) (hlength : entries.length = dst.width table)
      (hfits : ∀ entry ∈ entries, EntryFits table op.src entry)
      (hconstant : ∀ entry ∈ entries, ConstantBit entry)

/-- The values of the sources are misjudged when the operation is tabulated. -/
def MisjudgedAt (table : RegisterTable) (op : Operation) (dst : DestinationOperand)
    (values : List Literal) : Prop :=
  ∃ type a b, op.opcode = .binaryOp type ∧ values = [a, b] ∧
    (type = .shr → ∀ r l, op.src ≠ [.register r, .literal l]) ∧
    Misjudged a b (dst.width table) (op.shouldSignExtend 0) (op.shouldSignExtend 1) type

/-- What `LowerToLut` makes of an operation. -/
structure Lowered (table : RegisterTable) (op : Operation) (dst : DestinationOperand)
    (entries : List LutEntry) : Prop where
  length_eq : entries.length = dst.width table
  fits : ∀ entry ∈ entries, EntryFits table op.src entry
  constant : ∀ entry ∈ entries, ConstantBit entry
  value_iff : ∀ values v, ValuesOf table op.src values →
    combinationalResult op.opcode op.signExtendSourceMask (dst.width table) values = some v →
      (lutBits entries values = v ↔ ¬ MisjudgedAt table op dst values)
  misjudged : ∀ values, ValuesOf table op.src values → MisjudgedAt table op dst values →
    ∃ v, combinationalResult op.opcode op.signExtendSourceMask (dst.width table) values = some v

theorem lutBits_lt (entries : List LutEntry) (values : List Literal) :
    lutBits entries values < 2 ^ entries.length := by
  refine Nat.lt_pow_two_of_testBit _ fun c hc => ?_
  rw [testBit_lutBits, List.getElem?_eq_none hc]
  rfl

section

variable {table : RegisterTable} {op : Operation} {dst : DestinationOperand}
  {entries : List LutEntry} {d : Nat}

theorem LutConvertible.src_shape (h : LutConvertible table op dst) :
    ∀ s ∈ op.src, SourceShape table s := by
  cases h with
  | lowered hshape => exact hshape.src_shape
  | lut _ _ _ hsrc _ _ _ => exact hsrc

theorem LutConvertible.dst_eq (h : LutConvertible table op dst) : op.dst = [dst] := by
  cases h with
  | lowered hshape => exact hshape.dst_eq
  | lut _ _ hdst _ _ _ _ => exact hdst

theorem Conversion.length_eq (h : Conversion table op d entries) : entries.length = d := by
  cases h with
  | exact _ hconverts _ => rw [← hconverts.length_eq, List.length_range]
  | tabulated _ _ _ hconverts _ => rw [← hconverts.length_eq, List.length_range]

/-- The entries are right about the values that the reference arithmetic does not misjudge. -/
theorem Conversion.lowered (hshape : LoweringShape table op dst)
    (h : Conversion table op (dst.width table) entries)
    (hconstant : ∀ entry ∈ entries, ConstantBit entry) : Lowered table op dst entries := by
  refine ⟨h.length_eq, fun entry hmem => h.fits hmem, hconstant, ?_, ?_⟩
  · intro values v hvalues hv
    cases h with
    | exact hinvert hconverts htype =>
        obtain ⟨x, hx, rfl⟩ := exactResult_of_combinational hinvert hshape.not_lut hv
        refine iff_of_true (hconverts.lutBits_eq hvalues hx) ?_
        rintro ⟨type, a, b, hop, -, hshr, hmis⟩
        rcases htype type hop with hmem | ⟨rfl, r, l, hsrc⟩
        · simp only [List.mem_cons, List.not_mem_nil, or_false] at hmem
          rcases hmem with rfl | rfl | rfl | rfl <;> exact hmis
        · exact hshr rfl r l hsrc
    | tabulated type hop hresult hconverts hshift =>
        obtain ⟨x, hx, rfl⟩ := exactResult_of_combinational (by simp [hop]) hshape.not_lut hv
        unfold exactResult at hx
        rw [hop] at hx
        obtain ⟨a, b, rfl, hdef, rfl⟩ := exactBinaryResult_eq_some hx
        obtain ⟨-, hiff⟩ := tabulated_value hshape.src_shape hvalues hresult hconverts
        rw [hiff hdef, not_iff_not]
        constructor
        · exact fun hmis => ⟨type, a, b, hop, rfl, hshift, hmis⟩
        · rintro ⟨type', a', b', hop', heq, -, hmis⟩
          rw [hop, Opcode.binaryOp.injEq] at hop'
          subst hop'
          cases heq
          exact hmis
  · rintro values hvalues ⟨type, a, b, hop, rfl, hshr, hmis⟩
    cases h with
    | exact hinvert hconverts htype =>
        exfalso
        rcases htype type hop with hmem | ⟨rfl, r, l, hsrc⟩
        · simp only [List.mem_cons, List.not_mem_nil, or_false] at hmem
          rcases hmem with rfl | rfl | rfl | rfl <;> exact hmis
        · exact hshr rfl r l hsrc
    | tabulated type' hop' hresult hconverts hshift =>
        rw [hop, Opcode.binaryOp.injEq] at hop'
        subst hop'
        obtain ⟨ha, hb⟩ := wellFormed_of_values hshape.src_shape hvalues
        obtain ⟨hok, -⟩ := tabulated_value hshape.src_shape hvalues hresult hconverts
        have hdef := defined_of_misjudged ha hb hmis hok
        rw [hop]
        exact ⟨_, if_pos hdef⟩

/-- An operation that is converted becomes a lookup table with the same operands. -/
theorem lowerToLut_lowered (h : LutConvertible table op dst) {op' : Operation}
    (hok : lowerToLut table op = .ok (true, op')) :
    ∃ entries, op' = { op with opcode := .lut entries, signExtendSourceMask := 0 } ∧
      Lowered table op dst entries := by
  rw [lowerToLut, h.dst_eq] at hok
  simp only [bind_eq_ok_iff] at hok
  obtain ⟨entries?, hentries, hok⟩ := hok
  cases entries? with
  | none => cases hok
  | some entries =>
      cases hok
      refine ⟨entries, by rw [h.dst_eq], ?_⟩
      cases h with
      | lowered hshape =>
          exact (convertToLut_conversion hshape hentries).lowered hshape
            (convertToLut_constantBit hshape.not_lut hentries)
      | lut entries' hop hdst hsrc hlength hfits hconstant =>
          rw [convertToLut, hop] at hentries
          cases hentries
          refine ⟨hlength, hfits, hconstant, fun values v _ hv => ?_, ?_⟩
          · rw [hop] at hv
            have hv : some (truncate (lutBits entries values : Nat) (dst.width table)) = some v := hv
            rw [Option.some.injEq, truncate_natCast_of_lt (hlength ▸ lutBits_lt entries values)] at hv
            refine iff_of_true hv ?_
            rintro ⟨type, a, b, hbinary, -⟩
            rw [hop] at hbinary
            cases hbinary
          · rintro values _ ⟨type, a, b, hbinary, -⟩
            rw [hop] at hbinary
            cases hbinary

end

/-! ## Rows of the new table -/

/-- The bit of a column of the original table, where the selected operand has the value that
    the entries of the previous operation give. -/
def substitutedBit (op prevOp : Operation) (prevEntries : List LutEntry) (selectedSrcOpIdx : Nat)
    (bit : Nat × Nat → Bool) (source : Nat × Nat) : Bool :=
  if source.1 = selectedSrcOpIdx then
    TruthTable.eval (fun s => bit (regAndBit prevOp s)) (prevEntries.getD source.2 ⟨[], 0⟩).sources
      (prevEntries.getD source.2 ⟨[], 0⟩).table
  else bit (regAndBit op source)

section

variable {op prevOp : Operation} {prevEntries : List LutEntry} {selectedSrcOpIdx : Nat}
  {columns : List (Nat × Nat)} {bit : Nat × Nat → Bool}

theorem registerAt_eq {index srcReg : Nat} (h : registerAt op index = .ok srcReg) :
    op.src[index]? = some (.register srcReg) ∧ ∀ b, regAndBit op (index, b) = (srcReg, b) := by
  rw [registerAt] at h
  split at h
  next r hr =>
    obtain rfl := Except.ok.inj h
    refine ⟨hr, fun b => ?_⟩
    rw [regAndBit, hr]
    rfl
  next => cases h

/-- The slot that the bits of the registers select has these bits. -/
theorem bitInSlot_eq {x : Nat × Nat} {b : Bool}
    (h : bitInSlot columns (TruthTable.row bit columns) x = .ok b) : b = bit x := by
  simp only [bitInSlot, bind_eq_ok_iff, pure_eq_ok, Except.ok.injEq] at h
  obtain ⟨_, hmem, rfl⟩ := h
  have hmem : x ∈ columns := of_decide_eq_true (of_assert hmem)
  rw [TruthTable.testBit_row, List.getElem?_idxOf hmem, Option.any_some]

theorem indexOfBits_map {α : Type} (f : α → Bool) (l : List α) :
    indexOfBits (l.map f) = TruthTable.row f l := by
  refine Nat.eq_of_testBit_eq fun c => ?_
  rw [testBit_indexOfBits, TruthTable.testBit_row, List.getElem?_map, Option.any_map]

/-- The bits of registers, one by one. -/
theorem mapM_bitInSlot {sources : List (Nat × Nat)} {bits : List Bool}
    (h : sources.mapM (fun source => do
      bitInSlot columns (TruthTable.row bit columns)
        (← registerAt op source.1, source.2)) = .ok bits) :
    bits = sources.map fun s => bit (regAndBit op s) := by
  have hall := mapM_related h
  clear h
  induction hall with
  | nil => rfl
  | cons hbit _ ih =>
      obtain ⟨srcReg, hreg, hbit⟩ := bind_eq_ok_iff.mp hbit
      rw [List.map_cons, ← ih, bitInSlot_eq hbit, ← (registerAt_eq hreg).2]

/-- The value of the previous operation in a slot. -/
theorem prevValueInSlot_eq {prevEntry : LutEntry} {value : Nat} (hconstant : ConstantBit prevEntry)
    (h : prevValueInSlot prevOp columns (TruthTable.row bit columns) prevEntry = .ok value) :
    value = (TruthTable.eval (fun s => bit (regAndBit prevOp s)) prevEntry.sources
      prevEntry.table).toNat := by
  rw [prevValueInSlot] at h
  split at h
  next hpos =>
    obtain ⟨bits, hbits, h⟩ := bind_eq_ok_iff.mp h
    obtain rfl := Except.ok.inj h
    rw [mapM_bitInSlot hbits, indexOfBits_map]
    rfl
  next hpos =>
    obtain rfl := Except.ok.inj h
    have hnil : prevEntry.sources = [] := List.length_eq_zero_iff.mp (by omega)
    rw [hnil]
    exact toNat_testBit_zero (Nat.lt_succ_of_le (hconstant hnil))

theorem valueInSlot_eq {source : Nat × Nat} {value : Nat}
    (hconstant : ∀ entry ∈ prevEntries, ConstantBit entry)
    (h : valueInSlot op prevOp prevEntries selectedSrcOpIdx columns (TruthTable.row bit columns)
      source = .ok value) :
    value = (substitutedBit op prevOp prevEntries selectedSrcOpIdx bit source).toNat := by
  rw [valueInSlot] at h
  rw [substitutedBit]
  split at h
  next hsel =>
    rw [if_pos hsel]
    obtain ⟨prevEntry, hentry, h⟩ := bind_eq_ok_iff.mp h
    rw [prevEntryAt] at hentry
    split at hentry
    next hat =>
      obtain rfl := Except.ok.inj hentry
      rw [List.getD_eq_getElem?_getD, hat, Option.getD_some]
      exact prevValueInSlot_eq (hconstant _ (List.mem_of_getElem? hat)) h
    next => exact nomatch hentry
  next hsel =>
    rw [if_neg hsel]
    obtain ⟨srcReg, hreg, h⟩ := bind_eq_ok_iff.mp h
    obtain ⟨b, hb, h⟩ := bind_eq_ok_iff.mp h
    obtain rfl := Except.ok.inj h
    rw [bitInSlot_eq hb, ← (registerAt_eq hreg).2]

theorem testBit_toNat_shiftLeft (b : Bool) (i c : Nat) :
    (b.toNat <<< i).testBit c = (b && i == c) := by
  rw [Nat.testBit_shiftLeft]
  cases b with
  | false => rw [Bool.toNat_false, Nat.zero_testBit, Bool.and_false, Bool.false_and]
  | true =>
      rw [Bool.toNat_true, Bool.true_and, Bool.eq_iff_iff, Bool.and_eq_true, decide_eq_true_eq,
        Nat.testBit_one_eq_true_iff_self_eq_zero, beq_iff_eq]
      omega

/-- The slot of the original table for the slot that the bits of the registers select. -/
theorem slotInOriginalTable_eq {entry : LutEntry} {slot : Nat}
    (hconstant : ∀ entry ∈ prevEntries, ConstantBit entry)
    (h : slotInOriginalTable op prevOp prevEntries selectedSrcOpIdx columns entry
      (TruthTable.row bit columns) = .ok slot) :
    slot = TruthTable.row (substitutedBit op prevOp prevEntries selectedSrcOpIdx bit)
      entry.sources := by
  obtain ⟨values, hvalues, hslot⟩ := bind_eq_ok_iff.mp h
  obtain rfl := Except.ok.inj hslot
  clear h hslot
  have hmap : values = entry.sources.map fun s =>
      (substitutedBit op prevOp prevEntries selectedSrcOpIdx bit s).toNat := by
    have hall := mapM_related hvalues
    clear hvalues
    generalize entry.sources = sources at hall
    induction hall with
    | nil => rfl
    | cons hvalue _ ih => rw [List.map_cons, ← ih, valueInSlot_eq hconstant hvalue]
  refine Nat.eq_of_testBit_eq fun c => ?_
  rw [testBit_foldl_or, Nat.zero_testBit, Bool.false_or, TruthTable.testBit_row,
    Bool.eq_iff_iff, List.any_eq_true, Option.any_eq_true, hmap]
  constructor
  · rintro ⟨⟨value, i⟩, hmem, hbit⟩
    have hat := List.mem_zipIdx_iff_getElem?.mp hmem
    obtain ⟨s, hs, rfl⟩ := Option.map_eq_some_iff.mp (List.getElem?_map.symm.trans hat)
    rw [testBit_toNat_shiftLeft, Bool.and_eq_true, beq_iff_eq] at hbit
    obtain ⟨hbit, rfl⟩ := hbit
    exact ⟨s, hs, hbit⟩
  · rintro ⟨s, hs, hbit⟩
    refine ⟨((substitutedBit op prevOp prevEntries selectedSrcOpIdx bit s).toNat, c),
      List.mem_zipIdx_iff_getElem?.mpr ?_, ?_⟩
    · rw [List.getElem?_map, hs]
      rfl
    · rw [testBit_toNat_shiftLeft, hbit, beq_self_eq_true]
      rfl

/-! ## Entries of the new table -/

theorem prefix_addRegister (registers : List Nat) (srcReg : Nat) :
    registers <+: addRegister registers srcReg := by
  unfold addRegister
  split
  · exact List.prefix_refl registers
  · exact List.prefix_append _ _

/-- A column of the original table only adds registers. -/
theorem visitSource_extends {acc acc' : NewSources} {source : Nat × Nat}
    (h : visitSource op prevOp prevEntries selectedSrcOpIdx acc source = .ok acc') :
    acc.registers <+: acc'.registers := by
  rw [visitSource] at h
  split at h
  · obtain ⟨prevEntry, -, h⟩ := bind_eq_ok_iff.mp h
    refine foldlM_preserves (fun acc' => acc.registers <+: acc'.registers)
      (fun s _ acc₁ acc₂ hacc hstep => ?_) (List.prefix_refl _) h
    obtain ⟨srcReg, -, hstep⟩ := bind_eq_ok_iff.mp hstep
    obtain rfl := Except.ok.inj hstep
    exact hacc.trans (prefix_addRegister _ _)
  · obtain ⟨srcReg, -, h⟩ := bind_eq_ok_iff.mp h
    obtain ⟨_, -, h⟩ := bind_eq_ok_iff.mp h
    obtain rfl := Except.ok.inj h
    exact List.prefix_refl _

/-- What is known of an entry of the new table, whose sources are places of registers. -/
structure Combines (op prevOp : Operation) (prevEntries : List LutEntry) (selectedSrcOpIdx : Nat)
    (registers : List Nat) (entry newEntry : LutEntry) : Prop where
  length_le : newEntry.sources.length ≤ maxLutSources
  inRange : ∀ source ∈ newEntry.sources, source.1 < registers.length
  constant : ConstantBit newEntry
  eval : ∀ bit : Nat × Nat → Bool,
    TruthTable.eval (fun s => bit (registers.getD s.1 0, s.2)) newEntry.sources newEntry.table =
      TruthTable.eval (substitutedBit op prevOp prevEntries selectedSrcOpIdx bit) entry.sources
        entry.table

theorem Combines.of_prefix {registers registers' : List Nat} {entry newEntry : LutEntry}
    (h : Combines op prevOp prevEntries selectedSrcOpIdx registers entry newEntry)
    (hpre : registers <+: registers') :
    Combines op prevOp prevEntries selectedSrcOpIdx registers' entry newEntry := by
  refine ⟨h.length_le, fun s hs => Nat.lt_of_lt_of_le (h.inRange s hs) hpre.length_le,
    h.constant, fun bit => ?_⟩
  rw [← h.eval bit]
  refine TruthTable.eval_congr fun s hs => ?_
  obtain ⟨rest, rfl⟩ := hpre
  rw [List.getD_append _ _ _ _ (h.inRange s hs)]

theorem combineEntry_spec (hconstant : ∀ entry ∈ prevEntries, ConstantBit entry)
    {registers registers' : List Nat} {entry newEntry : LutEntry}
    (h : combineEntry op prevOp prevEntries selectedSrcOpIdx registers entry =
      .ok (some (registers', newEntry))) :
    registers <+: registers' ∧
      Combines op prevOp prevEntries selectedSrcOpIdx registers' entry newEntry := by
  simp only [combineEntry, bind_eq_ok_iff] at h
  obtain ⟨acc, hacc, h⟩ := h
  split at h
  · exact nomatch h
  next hle =>
    simp only [bind_eq_ok_iff, pure_eq_ok, Except.ok.injEq, Option.some.injEq,
      Prod.mk.injEq] at h
    obtain ⟨columns, hcolumns, slots, hslots, rfl, rfl⟩ := h
    have hpre : registers <+: acc.registers :=
      foldlM_preserves (fun acc' : NewSources => registers <+: acc'.registers)
        (fun s _ acc₁ acc₂ hpre hstep => hpre.trans (visitSource_extends hstep))
        (List.prefix_refl _) hacc
    -- The columns are the bits of the registers at the places
    have hall := mapM_related hcolumns
    have hplace : ∀ s ∈ acc.newSources, s.1 < acc.registers.length := by
      intro s hs
      obtain ⟨i, hi, rfl⟩ := List.getElem_of_mem hs
      have hcolumn := hall.get hi (hall.length_eq ▸ hi)
      rw [List.get_eq_getElem] at hcolumn
      split at hcolumn
      next hat => exact (List.getElem?_eq_some_iff.mp hat).1
      next => exact nomatch hcolumn
    have hmap : columns = acc.newSources.map fun s => (acc.registers.getD s.1 0, s.2) := by
      clear hslots hcolumns hplace
      generalize acc.newSources = newSources at hall
      induction hall with
      | nil => rfl
      | cons hcolumn _ ih =>
          split at hcolumn
          next hat =>
            obtain rfl := Except.ok.inj hcolumn
            rw [List.map_cons, ← ih, List.getD_eq_getElem?_getD, hat, Option.getD_some]
          next => exact nomatch hcolumn
    refine ⟨hpre, Nat.le_of_not_lt hle, hplace, constantBit_buildTable _ _, fun bit => ?_⟩
    have hrow : TruthTable.row (fun s => bit (acc.registers.getD s.1 0, s.2)) acc.newSources =
        TruthTable.row bit columns := by
      rw [hmap, TruthTable.row_map]
    have hlt : TruthTable.row bit columns < 2 ^ acc.newSources.length := by
      rw [← hrow]
      exact TruthTable.row_lt _ _
    have hslots' := mapM_related hslots
    have hlt' : TruthTable.row bit columns < slots.length := by
      rw [← hslots'.length_eq, List.length_range]
      exact hlt
    have hslot := hslots'.get (by rw [List.length_range]; exact hlt) hlt'
    rw [List.get_eq_getElem, List.get_eq_getElem, List.getElem_range] at hslot
    rw [TruthTable.eval, TruthTable.eval, hrow, testBit_buildTable, decide_eq_true hlt,
      Bool.true_and, List.getD_eq_getElem?_getD, List.getElem?_eq_getElem hlt', Option.getD_some,
      slotInOriginalTable_eq hconstant hslot]

theorem combineEntries_spec (hconstant : ∀ entry ∈ prevEntries, ConstantBit entry)
    {entries : List LutEntry} : ∀ {registers registers' : List Nat} {newEntries : List LutEntry},
      combineEntries op prevOp prevEntries selectedSrcOpIdx registers entries =
        .ok (some (registers', newEntries)) →
      registers <+: registers' ∧ List.Forall₂
        (Combines op prevOp prevEntries selectedSrcOpIdx registers') entries newEntries := by
  induction entries with
  | nil =>
      intro registers registers' newEntries h
      obtain ⟨rfl, rfl⟩ := Prod.mk.inj (Option.some.inj (Except.ok.inj h))
      exact ⟨List.prefix_refl _, .nil⟩
  | cons entry entries ih =>
      intro registers registers' newEntries h
      simp only [combineEntries, bind_eq_ok_iff] at h
      obtain ⟨first, hfirst, h⟩ := h
      cases first with
      | none => exact nomatch h
      | some first =>
          obtain ⟨registers₁, newEntry⟩ := first
          simp only [bind_eq_ok_iff, pure_eq_ok, Except.ok.injEq] at h
          obtain ⟨rest, hrest, h⟩ := h
          obtain ⟨⟨registers₂, newEntries₂⟩, rfl, heq⟩ := Option.map_eq_some_iff.mp h
          obtain ⟨rfl, rfl⟩ := Prod.mk.inj heq
          obtain ⟨hpre₁, hcombines⟩ := combineEntry_spec hconstant hfirst
          obtain ⟨hpre₂, hall⟩ := ih hrest
          exact ⟨hpre₁.trans hpre₂, .cons (hcombines.of_prefix hpre₂) hall⟩

end

/-! ## Values -/

section

variable {table : RegisterTable} {op prevOp : Operation} {dst : DestinationOperand}
  {entries prevEntries : List LutEntry} {regs : Nat → Nat}

theorem mapM_literalIn_shape {src : List SourceOperand} (h : ∀ s ∈ src, SourceShape table s)
    (regs : Nat → Nat) :
    src.mapM (SourceOperand.literalIn table regs) = some (src.map (operandLiteral table regs)) := by
  induction src with
  | nil => rfl
  | cons s src ih =>
      obtain ⟨l, hl⟩ := literalIn_exists (h s List.mem_cons_self) regs
      rw [List.mapM_cons, ih fun s' hs' => h s' (List.mem_cons_of_mem _ hs'), List.map_cons,
        operandLiteral, hl]
      rfl

theorem LutConvertible.valuesOf (h : LutConvertible table op dst) (regs : Nat → Nat) :
    ValuesOf table op.src (op.src.map (operandLiteral table regs)) :=
  ⟨regs, mapM_literalIn_shape h.src_shape regs⟩

theorem LutConvertible.operationValue_eq (h : LutConvertible table op dst) (regs : Nat → Nat)
    (dstWidth : Nat) :
    operationValue table regs dstWidth op =
      combinationalResult op.opcode op.signExtendSourceMask dstWidth
        (op.src.map (operandLiteral table regs)) := by
  rw [operationValue, mapM_literalIn_shape h.src_shape]
  rfl

/-- The bit of a register operand. -/
theorem selectedBit_register {src : List SourceOperand} {source : Nat × Nat} {r : Nat}
    (h : src[source.1]? = some (.register r)) :
    selectedBit (src.map (operandLiteral table regs)) source =
      registerBit table regs (r, source.2) := by
  rw [selectedBit, List.getD_eq_getElem?_getD, List.getElem?_map, h]
  rfl

theorem EntryFits.evaluate_eq {entry : LutEntry} (h : EntryFits table op.src entry) :
    entry.evaluate (op.src.map (operandLiteral table regs)) =
      TruthTable.eval (fun s => registerBit table regs (regAndBit op s)) entry.sources
        entry.table := by
  rw [evaluate_eq_eval]
  refine TruthTable.eval_congr fun s hs => ?_
  obtain ⟨r, hr, -⟩ := h.registers s hs
  rw [selectedBit_register hr, regAndBit, hr]
  rfl

/-- The registers hold the result of the previous operation in its destination. -/
def Produces (table : RegisterTable) (regs : Nat → Nat) (prevOp : Operation) (r : Nat) : Prop :=
  operationValue table regs (table.desc r).width prevOp =
    some (regs r % 2 ^ (table.desc r).width)

/-- Where the previous operation was made into the right table, the bits that are put in for the
    selected operand are its bits. -/
theorem substitutedBit_eq {r selectedSrcOpIdx : Nat} {entry : LutEntry} {source : Nat × Nat}
    (hsel : op.src[selectedSrcOpIdx]? = some (.register r)) (hfits : EntryFits table op.src entry)
    (hprev : Lowered table prevOp (.register r) prevEntries)
    (hbits : lutBits prevEntries (prevOp.src.map (operandLiteral table regs)) =
      regs r % 2 ^ (table.desc r).width) (hsource : source ∈ entry.sources) :
    substitutedBit op prevOp prevEntries selectedSrcOpIdx (registerBit table regs) source =
      selectedBit (op.src.map (operandLiteral table regs)) source := by
  obtain ⟨r', hr', hlt⟩ := hfits.registers source hsource
  rw [substitutedBit, selectedBit_register hr']
  split
  next heq =>
    rw [heq, hsel] at hr'
    obtain rfl := SourceOperand.register.inj (Option.some.inj hr')
    have hat : source.2 < prevEntries.length := by
      rw [hprev.length_eq]
      exact hlt
    have hget := List.getElem?_eq_getElem hat
    rw [List.getD_eq_getElem?_getD, hget, Option.getD_some,
      ← (hprev.fits _ (List.getElem_mem hat)).evaluate_eq, registerBit, ← hbits, testBit_lutBits,
      hget, Option.any_some]
  next => rw [regAndBit, hr']; rfl

/-- The new entries compute what the original ones do. -/
theorem lutBits_combined {registers : List Nat} {newEntries : List LutEntry}
    {r selectedSrcOpIdx : Nat} (hsel : op.src[selectedSrcOpIdx]? = some (.register r))
    (hop : Lowered table op dst entries) (hprev : Lowered table prevOp (.register r) prevEntries)
    (hbits : lutBits prevEntries (prevOp.src.map (operandLiteral table regs)) =
      regs r % 2 ^ (table.desc r).width)
    (hall : List.Forall₂ (Combines op prevOp prevEntries selectedSrcOpIdx registers)
      entries newEntries) :
    lutBits newEntries
        ((registers.map SourceOperand.register).map (operandLiteral table regs)) =
      lutBits entries (op.src.map (operandLiteral table regs)) := by
  refine lutBits_congr ?_
  have hfits := hop.fits
  clear hop
  induction hall with
  | nil => exact .nil
  | @cons entry newEntry entries newEntries hcombines _ ih =>
      refine .cons ?_ (ih fun e he => hfits e (List.mem_cons_of_mem _ he))
      have heval := hcombines.eval (registerBit table regs)
      rw [evaluate_eq_eval, evaluate_eq_eval]
      refine Eq.trans ?_ (heval.trans ?_)
      · refine TruthTable.eval_congr fun s hs => ?_
        refine selectedBit_register ?_
        have hlt := hcombines.inRange s hs
        rw [List.getElem?_map, List.getD_eq_getElem?_getD, List.getElem?_eq_getElem hlt]
        rfl
      · exact TruthTable.eval_congr fun s hs =>
          substitutedBit_eq hsel (hfits entry List.mem_cons_self) hprev hbits hs

end

/-! ## The pass -/

section

variable {table : RegisterTable} {op prevOp : Operation} {dst : DestinationOperand}

/-- The tables that are merged, and the operation made of the new entries. -/
theorem mergeLuts_cases {r selectedSrcOpIdx : Nat} (hop : LutConvertible table op dst)
    (hprev : LutConvertible table prevOp (.register r)) {newOp : Operation}
    (h : mergeLuts table op prevOp selectedSrcOpIdx = .ok (some newOp)) :
    ∃ entries prevEntries registers newEntries, Lowered table op dst entries ∧
      Lowered table prevOp (.register r) prevEntries ∧
      newOp = { opcode := .lut newEntries, src := registers.map .register, dst := [dst]
                tag := op.tag } ∧
      combineEntries { op with opcode := .lut entries, signExtendSourceMask := 0 }
        { prevOp with opcode := .lut prevEntries, signExtendSourceMask := 0 } prevEntries
        selectedSrcOpIdx (initialRegisters op selectedSrcOpIdx) entries =
          .ok (some (registers, newEntries)) := by
  simp only [mergeLuts, bind_eq_ok_iff] at h
  obtain ⟨_, -, ⟨converted, op₁⟩, hlower, h⟩ := h
  cases converted with
  | false => exact nomatch h
  | true =>
      simp only [Bool.not_true, Bool.false_eq_true, if_false, bind_eq_ok_iff] at h
      obtain ⟨⟨prevConverted, prevOp₁⟩, hprevLower, h⟩ := h
      cases prevConverted with
      | false => exact nomatch h
      | true =>
          simp only [Bool.not_true, Bool.false_eq_true, if_false] at h
          obtain ⟨entries, rfl, hlowered⟩ := lowerToLut_lowered hop hlower
          obtain ⟨prevEntries, rfl, hprevLowered⟩ := lowerToLut_lowered hprev hprevLower
          simp only [hop.dst_eq, bind_eq_ok_iff] at h
          obtain ⟨_, -, result, hresult, h⟩ := h
          cases result with
          | none => exact nomatch h
          | some result =>
              obtain ⟨registers, newEntries⟩ := result
              obtain rfl := Option.some.inj (Except.ok.inj h)
              exact ⟨entries, prevEntries, registers, newEntries, hlowered, hprevLowered, rfl,
                hop.dst_eq ▸ hresult⟩

/-- The operation that two lookup tables are merged into. -/
theorem mergeLuts_spec {r selectedSrcOpIdx : Nat} (hop : LutConvertible table op dst)
    (hprev : LutConvertible table prevOp (.register r)) {newOp : Operation}
    (h : mergeLuts table op prevOp selectedSrcOpIdx = .ok (some newOp)) :
    ∃ entries prevEntries registers newEntries, Lowered table op dst entries ∧
      Lowered table prevOp (.register r) prevEntries ∧
      newOp = { opcode := .lut newEntries, src := registers.map .register, dst := [dst]
                tag := op.tag } ∧
      List.Forall₂ (Combines op prevOp prevEntries selectedSrcOpIdx registers)
        entries newEntries := by
  obtain ⟨entries, prevEntries, registers, newEntries, hlowered, hprevLowered, rfl, hresult⟩ :=
    mergeLuts_cases hop hprev h
  obtain ⟨-, hall⟩ := combineEntries_spec hprevLowered.constant hresult
  exact ⟨entries, prevEntries, registers, newEntries, hlowered, hprevLowered, rfl,
    hall.imp fun _ _ hcombines => ⟨hcombines.length_le, hcombines.inRange, hcombines.constant,
      hcombines.eval⟩⟩

/-- The new operation is a lookup table of registers. -/
theorem lutOperation_of_combines (dst : DestinationOperand) (tag : Nat)
    {prevEntries entries newEntries : List LutEntry} {registers : List Nat}
    {selectedSrcOpIdx : Nat}
    (hall : List.Forall₂ (Combines op prevOp prevEntries selectedSrcOpIdx registers)
      entries newEntries) :
    LutOperation { opcode := .lut newEntries, src := registers.map .register, dst := [dst]
                   tag := tag } newEntries := by
  have hnew : ∀ newEntry ∈ newEntries, ∃ entry,
      Combines op prevOp prevEntries selectedSrcOpIdx registers entry newEntry := by
    intro newEntry hmem
    obtain ⟨i, hi, rfl⟩ := List.getElem_of_mem hmem
    exact ⟨_, hall.get (by rw [hall.length_eq]; exact hi) hi⟩
  refine ⟨rfl, rfl, rfl, fun s hs => ?_, fun e he => ?_, fun e he s hs => ?_, fun e he => ?_⟩
  · obtain ⟨r, -, rfl⟩ := List.mem_map.mp hs
    exact .register r
  · obtain ⟨entry, hcombines⟩ := hnew e he
    exact hcombines.length_le
  · obtain ⟨entry, hcombines⟩ := hnew e he
    rw [List.length_map]
    exact hcombines.inRange s hs
  · obtain ⟨entry, hcombines⟩ := hnew e he
    exact hcombines.constant

/-- An operation that is optimized keeps its destination and its value. -/
structure Optimized (op op' : Operation) (entries entries' : List LutEntry) : Prop where
  lut : LutOperation op' entries'
  dst : op'.dst = op.dst
  value : ∀ table regs, lutBits entries' (op'.src.map (operandLiteral table regs)) =
    lutBits entries (op.src.map (operandLiteral table regs))

theorem removeAllUnusedSources_spec (fuel : Nat) : ∀ {op : Operation} {entries : List LutEntry}
    {result : Except Failure Operation}, LutOperation op entries →
      removeAllUnusedSources fuel op = some result →
      ∃ op' entries', result = .ok op' ∧ Optimized op op' entries entries' := by
  induction fuel with
  | zero => exact fun _ h => nomatch h
  | succ fuel ih =>
      intro op entries result hlut h
      obtain ⟨entries₁, changed, hok, hrewrites, -, -⟩ :=
        removeUnusedLutSourceRegisters_rewrites hlut
      simp only [removeAllUnusedSources, hok] at h
      cases changed with
      | false =>
          obtain rfl := Option.some.inj h
          exact ⟨_, entries₁, rfl, hrewrites.lut, hrewrites.dst, hrewrites.value⟩
      | true =>
          obtain ⟨op', entries', rfl, hopt⟩ := ih hrewrites.lut h
          exact ⟨op', entries', rfl, hopt.lut, hopt.dst.trans hrewrites.dst, fun table regs =>
            (hopt.value table regs).trans (hrewrites.value table regs)⟩

/-- An entry whose table is all zeros or all ones. -/
def isConstantEntry (entry : LutEntry) : Bool :=
  decide (0 < entry.sources.length ∧
    (entry.table % 2 ^ 2 ^ entry.sources.length = 2 ^ 2 ^ entry.sources.length - 1 ∨
      entry.table % 2 ^ 2 ^ entry.sources.length = 0))

theorem optimizeConstantEntry_spec (src : List SourceOperand) {entry : LutEntry}
    (hlength : entry.sources.length ≤ maxLutSources) :
    ∃ entry', optimizeConstantEntry entry = .ok entry' ∧
      Shrinks src (isConstantEntry entry) entry entry' := by
  have hsize : 2 ^ entry.sources.length ≤ 64 := by
    have h := Nat.pow_le_pow_right (n := 2) (by decide) hlength
    exact h
  rw [optimizeConstantEntry]
  by_cases hpos : 0 < entry.sources.length
  · rw [if_pos hpos]
    simp only [assert_of_true (decide_eq_true hsize), ok_bind]
    by_cases hall : entry.table % 2 ^ 2 ^ entry.sources.length =
        2 ^ 2 ^ entry.sources.length - 1 ∨ entry.table % 2 ^ 2 ^ entry.sources.length = 0
    · rw [if_pos hall]
      have hconstant : isConstantEntry entry = true := decide_eq_true ⟨hpos, hall⟩
      rw [hconstant]
      refine ⟨_, rfl, List.nil_subset _, fun _ => hpos, nofun, fun _ _ => ?_, fun values _ => ?_⟩
      · dsimp only
        split <;> decide
      · -- The row of the masked table
        have hrow := TruthTable.row_lt (selectedBit values) entry.sources
        have hmask := Nat.testBit_mod_two_pow entry.table (2 ^ entry.sources.length)
          (TruthTable.row (selectedBit values) entry.sources)
        rw [decide_eq_true hrow, Bool.true_and] at hmask
        rw [evaluate_eq_eval, evaluate_eq_eval, TruthTable.eval, TruthTable.eval, ← hmask]
        rcases hall with hones | hzeros
        · have hne : 2 ^ 2 ^ entry.sources.length - 1 ≠ 0 := by
            have := Nat.one_lt_two_pow (n := 2 ^ entry.sources.length) (by positivity)
            omega
          rw [hones, if_neg hne, Nat.testBit_two_pow_sub_one, decide_eq_true hrow]
          exact (by decide : Nat.testBit 1 0 = true)
        · rw [hzeros, if_pos rfl, Nat.zero_testBit, Nat.zero_testBit]
    · rw [if_neg hall]
      have hconstant : isConstantEntry entry = false := decide_eq_false fun h => hall h.2
      rw [hconstant]
      exact ⟨entry, rfl, Shrinks.refl src entry⟩
  · rw [if_neg hpos]
    have hconstant : isConstantEntry entry = false := decide_eq_false fun h => hpos h.1
    rw [hconstant]
    exact ⟨entry, rfl, Shrinks.refl src entry⟩

theorem optimizeEntries_spec {entries : List LutEntry} (hlut : LutOperation op entries) :
    ∃ op' entries', optimizeEntries op entries = .ok op' ∧ Optimized op op' entries entries' := by
  obtain ⟨entries', hok, hall⟩ := mapM_succeeds (l := entries) fun entry hentry =>
    optimizeConstantEntry_spec op.src (hlut.length_le entry hentry)
  have hrewrites := rewrites_of_shrinks hlut hall
  simp only [optimizeEntries, hok, ok_bind, pure_eq_ok]
  cases hneeds : entries'.any fun lutEntry => decide (lutEntry.sources.length ≠ 0) with
  | true =>
      rw [if_pos rfl]
      exact ⟨_, entries', rfl, hrewrites.lut, hrewrites.dst, hrewrites.value⟩
  | false =>
      rw [if_neg Bool.false_ne_true]
      have hnone : ∀ entry ∈ entries', entry.sources = [] := by
        intro entry hentry
        have h := List.any_eq_false.mp hneeds entry hentry
        rw [decide_eq_true_eq, not_not] at h
        exact List.length_eq_zero_iff.mp h
      refine ⟨_, entries', rfl, ⟨rfl, hlut.mask, hlut.dst, nofun, hrewrites.lut.length_le,
        fun entry hentry source hsource => ?_, hrewrites.lut.constants⟩, rfl,
        fun table regs => Eq.trans (lutBits_congr ?_) (hrewrites.value table regs)⟩
      · rw [hnone entry hentry] at hsource
        exact absurd hsource List.not_mem_nil
      · -- Without columns the operands do not matter
        rw [List.forall₂_same]
        intro entry hentry
        rw [evaluate_eq_eval, evaluate_eq_eval, hnone entry hentry]
        rfl

theorem optimizeLutOpt_spec {fuel : Nat} {entries : List LutEntry}
    (hlut : LutOperation op entries) {result : Except Failure Operation}
    (h : optimizeLutOpt fuel op = some result) :
    ∃ op' entries', result = .ok op' ∧ Optimized op op' entries entries' := by
  obtain ⟨result₁, hresult₁, rfl⟩ := Option.map_eq_some_iff.mp h
  obtain ⟨op₁, entries₁, rfl, hopt₁⟩ := removeAllUnusedSources_spec fuel hlut hresult₁
  obtain ⟨op', entries', hok, hopt⟩ := optimizeEntries_spec hopt₁.lut
  refine ⟨op', entries', ?_, hopt.lut, hopt.dst.trans hopt₁.dst, fun table regs =>
    (hopt.value table regs).trans (hopt₁.value table regs)⟩
  rw [ok_bind, hopt₁.lut.opcode]
  exact hok

/-- When two operations are not merged, the operation stays as it is.  When they are, the new
    lookup table has no entry with too many sources and only refers to operands it has; and for
    registers that hold the result of the previous operation, and whose values its table does
    not misjudge, it has the value of the operation exactly if the table of the operation does
    not misjudge them either. -/
theorem combineLuts_preserves_iff {fuel r selectedSrcOpIdx maxSources : Nat} {combined : Bool}
    {op' : Operation} (hop : LutConvertible table op dst)
    (hprev : LutConvertible table prevOp (.register r))
    (hsel : op.src[selectedSrcOpIdx]? = some (.register r))
    (h : combineLuts fuel table op prevOp selectedSrcOpIdx maxSources =
      some (.ok (combined, op'))) :
    (combined = false → op' = op) ∧
    (combined = true → ∃ entries, op'.opcode = .lut entries ∧ op'.dst = op.dst ∧
      (∀ entry ∈ entries, entry.sources.length ≤ maxSources ∧
        ∀ source ∈ entry.sources, source.1 < op'.src.length) ∧
      ∀ regs, Produces table regs prevOp r →
        ¬ MisjudgedAt table prevOp (.register r) (prevOp.src.map (operandLiteral table regs)) →
        ((∀ v, operationValue table regs (dst.width table) op = some v →
            operationValue table regs (dst.width table) op' = some v) ↔
          ¬ MisjudgedAt table op dst (op.src.map (operandLiteral table regs)))) := by
  unfold combineLuts at h
  split at h
  · exact nomatch h
  · obtain ⟨rfl, rfl⟩ := Prod.mk.inj (Except.ok.inj (Option.some.inj h))
    exact ⟨fun _ => rfl, nofun⟩
  next newOp hmerge =>
    obtain ⟨entries, prevEntries, registers, newEntries, hlowered, hprevLowered, rfl, hall⟩ :=
      mergeLuts_spec hop hprev hmerge
    have hlut := lutOperation_of_combines dst op.tag hall
    obtain ⟨result, hresult, h⟩ := Option.map_eq_some_iff.mp h
    obtain ⟨op₁, entries₁, rfl, hopt⟩ := optimizeLutOpt_spec hlut hresult
    have haccept : acceptLut maxSources op op₁ = (combined, op') := Except.ok.inj h
    simp only [acceptLut, hopt.lut.opcode] at haccept
    split at haccept
    · obtain ⟨rfl, rfl⟩ := Prod.mk.inj haccept
      exact ⟨fun _ => rfl, nofun⟩
    next hle =>
      obtain ⟨rfl, rfl⟩ := Prod.mk.inj haccept
      refine ⟨nofun, fun _ => ⟨entries₁, hopt.lut.opcode, hopt.dst.trans hop.dst_eq.symm,
        fun entry hentry => ⟨?_, hopt.lut.inRange entry hentry⟩, fun regs hproduces hnot => ?_⟩⟩
      · refine Nat.le_of_not_lt fun hlt => hle ?_
        exact List.any_eq_true.mpr ⟨entry, hentry, decide_eq_true hlt⟩
      · rw [Produces, hprev.operationValue_eq] at hproduces
        have hbits := (hprevLowered.value_iff _ _ (hprev.valuesOf regs) hproduces).mpr hnot
        have hvalue : operationValue table regs (dst.width table) op₁ =
            some (lutBits entries (op.src.map (operandLiteral table regs))) := by
          rw [hopt.lut.value_eq, hopt.value table regs,
            lutBits_combined hsel hlowered hprevLowered hbits hall,
            truncate_natCast_of_lt (hlowered.length_eq ▸ lutBits_lt entries _)]
        rw [hvalue, hop.operationValue_eq]
        constructor
        · intro hpreserves hmis
          obtain ⟨v, hv⟩ := hlowered.misjudged _ (hop.valuesOf regs) hmis
          exact (hlowered.value_iff _ v (hop.valuesOf regs) hv).mp
            (Option.some.inj (hpreserves v hv)) hmis
        · intro hnot v hv
          rw [(hlowered.value_iff _ v (hop.valuesOf regs) hv).mpr hnot]

end

/-! ## Bits compared for equality -/

/-- Registers of one bit. -/
def bitTable : RegisterTable := List.replicate 4 (localRegister 1)

/-- Compares the bits of the registers 0 and 1, the first of them signed or not. -/
def compareBits (signed : Bool) : Operation where
  opcode := .binaryOp .eq
  signExtendSourceMask := signed.toNat
  src := [.register 0, .register 1]
  dst := [.register 2]

/-- Inverts the bit of register 3. -/
def invertBit : Operation where
  opcode := .unaryOp .invert
  src := [.register 3]
  dst := [.register 0]

/-- Minus one is not one, but the merged table, like that of the comparison, says so. -/
theorem combineLuts_misjudges :
    ∃ op', combineLuts 8 bitTable (compareBits true) invertBit 0 6 = some (.ok (true, op')) ∧
      Produces bitTable (fun r => if r = 3 then 0 else 1) invertBit 0 ∧
      operationValue bitTable (fun r => if r = 3 then 0 else 1) 1 (compareBits true) = some 0 ∧
      operationValue bitTable (fun r => if r = 3 then 0 else 1) 1 op' = some 1 := by
  refine ⟨{ opcode := .lut [⟨[(1, 0), (0, 0)], 6⟩], src := [.register 1, .register 3],
            dst := [.register 2] }, ?_, ?_, ?_, ?_⟩
  · rfl
  · unfold Produces
    decide +kernel
  · decide +kernel
  · decide +kernel

theorem bitTable_shape {op : Operation} {d : Nat} (hdst : op.dst = [.register d])
    (hsrc : ∀ s ∈ op.src, ∃ r < 4, s = .register r)
    (hgather : ∀ entries, op.opcode ≠ .gather entries)
    (hlut : ∀ entries, op.opcode ≠ .lut entries) : LoweringShape bitTable op (.register d) := by
  refine ⟨hdst, fun s hs => ?_, fun entries h => absurd h (hgather entries), hlut⟩
  obtain ⟨r, hr, rfl⟩ := hsrc s hs
  have hwidth : (bitTable.desc r).width = 1 := by
    have : r = 0 ∨ r = 1 ∨ r = 2 ∨ r = 3 := by omega
    rcases this with rfl | rfl | rfl | rfl <;> rfl
  exact ⟨by rw [hwidth]; decide, by rw [hwidth]; decide⟩

/-- A comparison of unsigned bits is merged with the inversion of one of them. -/
theorem combineLuts_preserves_iff_compareBits :
    ∃ op', combineLuts 8 bitTable (compareBits false) invertBit 0 6 = some (.ok (true, op')) ∧
      ∀ regs, Produces bitTable regs invertBit 0 →
        ¬ MisjudgedAt bitTable invertBit (.register 0)
          (invertBit.src.map (operandLiteral bitTable regs)) →
        ((∀ v, operationValue bitTable regs 1 (compareBits false) = some v →
            operationValue bitTable regs 1 op' = some v) ↔
          ¬ MisjudgedAt bitTable (compareBits false) (.register 2)
            ((compareBits false).src.map (operandLiteral bitTable regs))) := by
  have h : combineLuts 8 bitTable (compareBits false) invertBit 0 6 = some (.ok (true,
      { opcode := .lut [⟨[(1, 0), (0, 0)], 6⟩], src := [.register 1, .register 3],
        dst := [.register 2] })) := rfl
  have hcompare : LoweringShape bitTable (compareBits false) (.register 2) :=
    bitTable_shape rfl (by simp [compareBits]) nofun nofun
  have hinvert : LoweringShape bitTable invertBit (.register 0) :=
    bitTable_shape rfl (by simp [invertBit]) nofun nofun
  obtain ⟨entries, -, -, -, hiff⟩ :=
    (combineLuts_preserves_iff (.lowered hcompare) (.lowered hinvert) rfl h).2 rfl
  exact ⟨_, h, hiff⟩

end Kanagawa.Optimize
