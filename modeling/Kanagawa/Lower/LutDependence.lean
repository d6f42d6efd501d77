/-
  Kanagawa.Lower.LutDependence

  What the result of an operation that is lowered to a lookup table depends on.

  A bit of the result does not change as long as the bits of the sources that its entry looks
  at do not change.  The entries need not compute the result for this: a table that holds all
  results looks at all bits of all registers, and the entries of a `Select` look at the low bits
  of its index only, as many as there are choices.
-/
import Kanagawa.Lower.UnusedBits
import Kanagawa.Optimize.LowerToLutSound
import Kanagawa.Lib.Related

namespace Kanagawa.Lower.UnusedBits

open Kanagawa.IR Kanagawa.Optimize Kanagawa.Lib Lib.Except Lib.Bits

/-- A `Select` is a tree of multiplexers: its index is cut to the number of its levels. -/
def selectResult (op : Operation) (dstWidth : Nat) : List Literal → Option Nat
  | [] => none
  | index :: choices =>
      let selected := index.value % 2 ^ choices.length.log2
      choices[selected]?.map fun (choice : Literal) =>
        truncate (choice.denote (op.shouldSignExtend (selected + 1))) dstWidth

/-- The value an operation that can be lowered to a lookup table gives its destination.  Where
    the arithmetic has no result the machine decides, from the values of the sources. -/
def lutResult (undefinedResult : Operation → List Literal → Nat) (op : Operation) (dstWidth : Nat)
    (values : List Literal) : Nat :=
  let result := if op.opcode = .select then selectResult op dstWidth values
    else combinationalResult op.opcode op.signExtendSourceMask dstWidth values
  result.getD (undefinedResult op values) % 2 ^ dstWidth

theorem lutResult_lt (undefinedResult : Operation → List Literal → Nat) (op : Operation)
    (dstWidth : Nat) (values : List Literal) :
    lutResult undefinedResult op dstWidth values < 2 ^ dstWidth :=
  Nat.mod_lt _ (Nat.two_pow_pos _)

/-- The bits that an entry looks at are the same. -/
def SameBits (entry : LutEntry) (values values' : List Literal) : Prop :=
  ∀ s ∈ entry.sources, selectedBit values s = selectedBit values' s

section Entries

variable {table : RegisterTable} {op : Operation} {dst : DestinationOperand} {d j : Nat}
  {entry : LutEntry} {entries : List LutEntry} {values values' : List Literal}
  {undefinedResult : Operation → List Literal → Nat}

theorem SameBits.evaluate_eq (h : SameBits entry values values') :
    entry.evaluate values = entry.evaluate values' := by
  have hrow : selectedRow values entry.sources = selectedRow values' entry.sources := by
    refine Nat.eq_of_testBit_eq fun c => ?_
    rw [testBit_selectedRow, testBit_selectedRow]
    cases hs : entry.sources[c]? with
    | none => rfl
    | some s => exact h s (List.mem_of_getElem? hs)
  rw [Optimize.evaluate_eq, Optimize.evaluate_eq, hrow]

/-! ## Exact conversions -/

/-- The amount of a shift that is converted is not signed. -/
theorem convertShiftOpToLut_unsigned {type : BinaryOpType} {shifted : Option (List LutEntry)}
    (h : convertShiftOpToLut table op type d = .ok shifted) : op.shouldSignExtend 1 = false := by
  simp only [convertShiftOpToLut, bind_eq_ok_iff] at h
  obtain ⟨_, hunsigned, -⟩ := h
  simpa using of_assert hunsigned

/-- A binary operator is converted exactly, or all its results are tabulated. -/
theorem binaryOpToLut_cases {type : BinaryOpType} (hopcode : op.opcode = .binaryOp type)
    (hshape : ∀ s ∈ op.src, SourceShape table s)
    (h : binaryOpToLut table op type d = .ok (some entries)) :
    (Converts table op.src d entries (exactResult op) ∧
        ∀ b : Literal, type.Defined (b.denote (op.shouldSignExtend 1))) ∨
      convertBinaryOpToLut table op type d = .ok (some entries) := by
  simp only [binaryOpToLut, bind_eq_ok_iff] at h
  obtain ⟨_, -, h⟩ := h
  cases type with
  | and =>
      exact .inl ⟨pointwise_converts hopcode hshape (fun x y j => by
        rw [testBit_andTable, exactBinaryOp, Int.testBit_land]) h, fun _ => trivial⟩
  | or =>
      exact .inl ⟨pointwise_converts hopcode hshape (fun x y j => by
        rw [testBit_orTable, exactBinaryOp, Int.testBit_lor]) h, fun _ => trivial⟩
  | xor =>
      exact .inl ⟨pointwise_converts hopcode hshape (fun x y j => by
        rw [testBit_xorTable, exactBinaryOp, Int.testBit_lxor]) h, fun _ => trivial⟩
  | shl | shr =>
      simp only [bind_eq_ok_iff] at h
      obtain ⟨shifted, hshifted, h⟩ := h
      cases shifted with
      | none => exact .inr h
      | some entries' =>
          obtain rfl := Option.some.inj (Except.ok.inj h)
          obtain ⟨-, hconverts⟩ := convertShiftOpToLut_spec (by simp) hshape hshifted
          refine .inl ⟨exactResult_binaryOp hopcode ▸ hconverts, fun b => ?_⟩
          rw [convertShiftOpToLut_unsigned hshifted, denote_false]
          exact Int.natCast_nonneg _
  | _ => exact .inr h

/-- A conversion is exact, of operands for which the operation has a result, or tabulates all
    results of a binary operator. -/
theorem convertToLut_cases (hshape : LoweringShape table op dst)
    (h : convertToLut table op d = .ok (some entries)) :
    (Converts table op.src d entries (exactResult op) ∧
        ∀ type, op.opcode = .binaryOp type →
          ∀ b : Literal, type.Defined (b.denote (op.shouldSignExtend 1))) ∨
      ∃ type, op.opcode = .binaryOp type ∧
        convertBinaryOpToLut table op type d = .ok (some entries) := by
  by_cases hbinary : ∃ type, op.opcode = .binaryOp type
  · obtain ⟨type, hop⟩ := hbinary
    have hbinaryOp : binaryOpToLut table op type d = .ok (some entries) := by
      rw [convertToLut, hop] at h
      exact h
    rcases binaryOpToLut_cases hop hshape.src_shape hbinaryOp with ⟨hconverts, hdefined⟩ | htable
    · refine .inl ⟨hconverts, fun type' hop' => ?_⟩
      rw [hop, Opcode.binaryOp.injEq] at hop'
      exact hop' ▸ hdefined
    · exact .inr ⟨type, hop, htable⟩
  · refine .inl ?_
    cases convertToLut_conversion hshape h with
    | exact _ hconverts _ => exact ⟨hconverts, fun type hop => absurd ⟨type, hop⟩ hbinary⟩
    | tabulated type hop => exact absurd ⟨type, hop⟩ hbinary

theorem length_two {values : List Literal} (h : values.length = 2) : ∃ a b, values = [a, b] := by
  rcases values with _ | ⟨a, _ | ⟨b, _ | _⟩⟩ <;> simp at h
  exact ⟨a, b, rfl⟩

/-- Apart from a `Select`, an operation that is converted exactly has an exact result. -/
theorem lutResult_eq_truncate (hshape : LoweringShape table op dst)
    (h : convertToLut table op d = .ok (some entries)) (hselect : op.opcode ≠ .select)
    (hdefined : ∀ type, op.opcode = .binaryOp type →
      ∀ b : Literal, type.Defined (b.denote (op.shouldSignExtend 1)))
    (hlen : values.length = op.src.length) :
    ∃ x, exactResult op values = some x ∧ lutResult undefinedResult op d values = truncate x d := by
  have hsome : ∃ v, combinationalResult op.opcode op.signExtendSourceMask d values = some v := by
    unfold convertToLut at h
    split at h
    next hop =>
      simp only [bind_eq_ok_iff] at h
      obtain ⟨_, harity, -⟩ := h
      obtain ⟨a, rfl⟩ := List.length_eq_one_iff.mp
        (hlen.trans (of_decide_eq_true (of_assert harity)))
      exact ⟨_, by rw [hop]; rfl⟩
    next hop =>
      simp only [bind_eq_ok_iff] at h
      obtain ⟨_, harity, -⟩ := h
      obtain rfl := List.length_eq_zero_iff.mp (hlen.trans (of_decide_eq_true (of_assert harity)))
      exact ⟨_, by rw [hop]; rfl⟩
    next type hop =>
      simp only [bind_eq_ok_iff] at h
      obtain ⟨_, harity, -⟩ := h
      obtain ⟨a, rfl⟩ := List.length_eq_one_iff.mp
        (hlen.trans (of_decide_eq_true (of_assert harity)))
      exact ⟨_, by rw [hop]; rfl⟩
    next type hop =>
      simp only [binaryOpToLut, bind_eq_ok_iff] at h
      obtain ⟨_, harity, -⟩ := h
      obtain ⟨a, b, rfl⟩ := length_two (hlen.trans (of_decide_eq_true (of_assert harity)))
      exact ⟨_, by rw [hop]; exact if_pos (hdefined type hop b)⟩
    next hop => exact absurd hop hselect
    next gatherEntries hop => exact ⟨_, by rw [hop]; rfl⟩
    next entries' hop => exact absurd hop (hshape.not_lut entries')
    next => cases h
  obtain ⟨v, hv⟩ := hsome
  have hinvert : ∀ type, op.opcode = .unaryOp type → type = .invert := by
    intro type hop
    rw [convertToLut, hop] at h
    simp only [bind_eq_ok_iff] at h
    obtain ⟨_, -, _, hinvert, -⟩ := h
    exact of_decide_eq_true (of_assert hinvert)
  obtain ⟨x, hx, rfl⟩ := exactResult_of_combinational hinvert hshape.not_lut hv
  refine ⟨x, hx, ?_⟩
  rw [lutResult, if_neg hselect, hv, Option.getD_some, Nat.mod_eq_of_lt (combinationalResult_lt hv)]

/-! ## Tabulated results -/

/-- Every entry of a table of all results looks at all bits of the registers. -/
theorem convertBinaryOpToLut_sources {type : BinaryOpType}
    (h : convertBinaryOpToLut table op type d = .ok (some entries)) (hentry : entry ∈ entries) :
    entry.sources = registerBits table op.src 0 := by
  rw [convertBinaryOpToLut] at h
  split at h
  next =>
    simp only [bind_eq_ok_iff] at h
    obtain ⟨_, -, resultTable, -, h⟩ := h
    obtain ⟨entries', hentries, hsome⟩ := map_eq_ok h
    cases hsome
    obtain ⟨j, -, hj⟩ := Related.exists_left (mapM_related hentries) hentry
    rw [resultEntry_eq hj]
  next => cases h

theorem registerBits_mem {src : List SourceOperand} {i r b : Nat} (hb : b < (table.desc r).width) :
    ∀ {start : Nat}, src[i]? = some (.register r) → (start + i, b) ∈ registerBits table src start := by
  induction src generalizing i with
  | nil => exact fun h => nomatch h
  | cons s src ih =>
      intro start hs
      cases i with
      | zero =>
          obtain rfl := Option.some.inj hs
          exact List.mem_append_left _ (List.mem_map.mpr ⟨b, List.mem_range.mpr hb, rfl⟩)
      | succ i =>
          have hnext := @ih i (start + 1) hs
          rw [show start + 1 + i = start + (i + 1) by omega] at hnext
          cases s with
          | register _ => exact List.mem_append_right _ hnext
          | _ => exact hnext

/-- Sources whose registers have the same bits have the same values. -/
theorem ValuesOf.eq_of_registerBits (h : ValuesOf table op.src values)
    (h' : ValuesOf table op.src values')
    (hbits : ∀ s ∈ registerBits table op.src 0, selectedBit values s = selectedBit values' s) :
    values = values' := by
  refine List.ext_getElem? fun i => ?_
  cases hs : op.src[i]? with
  | none =>
      have hle := List.getElem?_eq_none_iff.mp hs
      rw [List.getElem?_eq_none (by rw [← h.length_eq]; exact hle),
        List.getElem?_eq_none (by rw [← h'.length_eq]; exact hle)]
  | some s =>
      cases s with
      | literal l => rw [h.literal_eq hs, h'.literal_eq hs]
      | register r =>
          obtain ⟨v, hv, hvalue⟩ := h.register_value hs
          obtain ⟨v', hv', hvalue'⟩ := h'.register_value hs
          rw [hvalue, hvalue']
          congr 2
          refine Nat.eq_of_testBit_eq fun b => ?_
          rcases Nat.lt_or_ge b (table.desc r).width with hb | hb
          · have hbit := hbits (i, b) (by simpa using @registerBits_mem table op.src i r b hb 0 hs)
            rwa [selectedBit_of_get? hvalue, selectedBit_of_get? hvalue'] at hbit
          · rw [Nat.testBit_lt_two_pow (hv.trans_le (Nat.pow_le_pow_right (by decide) hb)),
              Nat.testBit_lt_two_pow (hv'.trans_le (Nat.pow_le_pow_right (by decide) hb))]
      | fifo f =>
          obtain ⟨_, _, -, hl⟩ := h.get? hs
          exact nomatch hl
      | stringLiteral _ =>
          obtain ⟨_, _, -, hl⟩ := h.get? hs
          exact nomatch hl

/-! ## Selection -/

theorem lutSources_mem {descs : List LutSourceDesc} {i b : Nat} : ∀ {start : Nat},
    descs[i]? = some (.bit b) → (start + i, b) ∈ lutSources descs start := by
  induction descs generalizing i with
  | nil => exact fun h => nomatch h
  | cons desc descs ih =>
      intro start hdesc
      cases i with
      | zero =>
          obtain rfl := Option.some.inj hdesc
          exact List.mem_cons_self
      | succ i =>
          have hnext := @ih i (start + 1) hdesc
          rw [show start + 1 + i = start + (i + 1) by omega] at hnext
          cases desc with
          | literal _ => exact hnext
          | bit _ => exact List.mem_cons_of_mem _ hnext

/-- A described bit of a source is the same where the bits that are looked at are. -/
theorem bitIn_congr {descs : List LutSourceDesc} {desc : LutSourceDesc} {i start : Nat}
    (hdesc : descs[i]? = some desc)
    (hbits : ∀ s ∈ lutSources descs start, selectedBit values s = selectedBit values' s) :
    desc.bitIn values (start + i) = desc.bitIn values' (start + i) := by
  cases desc with
  | literal _ => rfl
  | bit b => exact hbits _ (lutSources_mem hdesc)

/-- The index of a `Select` and the bit of the choice it selects are looked at. -/
theorem select_testBit_congr {choices : List SourceOperand} {r : Nat} (hopcode : op.opcode = .select)
    (hshape : ∀ s ∈ op.src, SourceShape table s) (hsrc : op.src = .register r :: choices)
    (hpow : choices.length = 2 ^ choices.length.log2)
    (hentry : selectEntry table op choices.length.log2 j = .ok (some entry))
    (h : ValuesOf table op.src values) (h' : ValuesOf table op.src values')
    (hsame : SameBits entry values values') :
    (lutResult undefinedResult op d values).testBit j =
      (lutResult undefinedResult op d values').testBit j := by
  simp only [selectEntry, bind_eq_ok_iff] at hentry
  obtain ⟨descs, hdescs, hentry⟩ := hentry
  have hdescribed := getSourceOperandDescriptions_spec hshape hdescs
  split at hentry
  next => cases hentry
  next =>
    obtain rfl := Option.some.inj (Except.ok.inj hentry)
    have hlen := h.length_eq
    have hlen' := h'.length_eq
    rw [hsrc] at hlen hlen'
    obtain ⟨index, rest, rfl⟩ := List.exists_cons_of_length_eq_add_one hlen.symm
    obtain ⟨index', rest', rfl⟩ := List.exists_cons_of_length_eq_add_one hlen'.symm
    have hrest : rest.length = choices.length := by simpa using hlen.symm
    have hrest' : rest'.length = choices.length := by simpa using hlen'.symm
    -- Both runs take the same choice
    have hindex : index.value % 2 ^ choices.length.log2 = index'.value % 2 ^ choices.length.log2 := by
      refine Nat.eq_of_testBit_eq fun b => ?_
      rw [Nat.testBit_mod_two_pow, Nat.testBit_mod_two_pow]
      rcases Nat.lt_or_ge b choices.length.log2 with hb | hb
      · have hbit := hsame (0, b) (List.mem_append_left _
          (List.mem_map.mpr ⟨b, List.mem_range.mpr hb, rfl⟩))
        rw [@selectedBit_of_get? _ _ _ index rfl, @selectedBit_of_get? _ _ _ index' rfl] at hbit
        rw [hbit]
      · rw [decide_eq_false (by omega), Bool.false_and, Bool.false_and]
    have hselected : index'.value % 2 ^ choices.length.log2 < choices.length :=
      (Nat.mod_lt _ (Nat.two_pow_pos _)).trans_eq hpow.symm
    have hbit : ∀ {values : List Literal} {index : Literal} {rest : List Literal},
        values = index :: rest → ValuesOf table op.src values → rest.length = choices.length →
        ∃ desc, descs.tail[index.value % 2 ^ choices.length.log2]? = some desc ∧
          (lutResult undefinedResult op d values).testBit j =
            (decide (j < d) &&
              desc.bitIn values (index.value % 2 ^ choices.length.log2 + 1)) := by
      rintro _ index rest rfl hvalues hrest
      have hselected : index.value % 2 ^ choices.length.log2 < choices.length :=
        (Nat.mod_lt _ (Nat.two_pow_pos _)).trans_eq hpow.symm
      rw [lutResult, if_pos hopcode, selectResult, hrest]
      generalize index.value % 2 ^ choices.length.log2 = selected at hselected ⊢
      have hdesc : selected + 1 < descs.length := by
        rw [hdescribed.length_eq, hsrc, List.length_cons]
        omega
      have hchoice : rest[selected]? = some rest[selected] := List.getElem?_eq_getElem _
      refine ⟨descs[selected + 1], ?_, ?_⟩
      · rw [List.getElem?_tail, List.getElem?_eq_getElem hdesc]
      · have hdenote := hdescribed.bits (index :: rest) (selected + 1) _ rest[selected] hvalues
          (List.getElem?_eq_getElem hdesc) hchoice
        rw [hdenote, hchoice, Option.map_some, Option.getD_some, Nat.testBit_mod_two_pow,
          testBit_truncate, ← Bool.and_assoc, Bool.and_self]
    obtain ⟨desc, hdesc, hvalue⟩ := hbit rfl h hrest
    obtain ⟨desc', hdesc', hvalue'⟩ := hbit rfl h' hrest'
    rw [← hindex, hdesc, Option.some.injEq] at hdesc'
    subst hdesc'
    rw [hvalue, hvalue', ← hindex, Nat.add_comm,
      bitIn_congr hdesc fun s hs => hsame s (List.mem_append_right _ hs)]

/-! ## Any conversion -/

/-- A bit of the result is the same where the bits that its entry looks at are. -/
theorem lutResult_testBit_congr (hshape : LoweringShape table op dst)
    (hlowered : convertToLut table op d = .ok (some entries)) (hj : entries[j]? = some entry)
    (h : ValuesOf table op.src values) (h' : ValuesOf table op.src values')
    (hsame : SameBits entry values values') :
    (lutResult undefinedResult op d values).testBit j =
      (lutResult undefinedResult op d values').testBit j := by
  by_cases hselect : op.opcode = .select
  · rw [convertToLut, hselect] at hlowered
    dsimp only at hlowered
    rw [convertSelectOpToLut] at hlowered
    split at hlowered
    next r choices hsrc =>
      simp only [bind_eq_ok_iff] at hlowered
      obtain ⟨_, hpow, _, -, hlowered⟩ := hlowered
      have hall := convertBits_spec hlowered
      have hjd : j < d := by
        have hlen := hall.length_eq
        rw [List.length_range] at hlen
        exact hlen ▸ (List.getElem?_eq_some_iff.mp hj).1
      obtain ⟨entry', hentry', hselected⟩ := get?_of_forall₂_range hall hjd
      rw [hj, Option.some.injEq] at hentry'
      subst hentry'
      exact select_testBit_congr hselect hshape.src_shape hsrc (isPow2_iff (of_assert hpow))
        hselected h h' hsame
    next => cases hlowered
    next => cases hlowered
  rcases convertToLut_cases hshape hlowered with ⟨hconverts, hdefined⟩ | ⟨type, hop, htable⟩
  · -- The entry evaluates to the bit of both exact results
    have hbit : ∀ {values}, ValuesOf table op.src values →
        (lutResult undefinedResult op d values).testBit j =
          (decide (j < d) && entry.evaluate values) := by
      intro values hvalues
      obtain ⟨x, hx, hresult⟩ := lutResult_eq_truncate hshape
        hlowered hselect hdefined hvalues.length_eq.symm
      rw [hresult, testBit_truncate]
      rcases Nat.lt_or_ge j d with hjd | hjd
      · obtain ⟨entry', hentry', -, heval⟩ := get?_of_forall₂_range hconverts hjd
        rw [hj, Option.some.injEq] at hentry'
        rw [hentry', heval values x hvalues hx]
      · rw [decide_eq_false (by omega), Bool.false_and, Bool.false_and]
    rw [hbit h, hbit h', hsame.evaluate_eq]
  · have hsources := convertBinaryOpToLut_sources htable (List.mem_of_getElem? hj)
    rw [ValuesOf.eq_of_registerBits h h' fun s hs => hsame s (hsources ▸ hs)]

/-- The same for an operation that is a lookup table already. -/
theorem lutResult_testBit_congr_of_lut (hopcode : op.opcode = .lut entries)
    (hsame : ∀ entry, entries[j]? = some entry → SameBits entry values values') :
    (lutResult undefinedResult op d values).testBit j =
      (lutResult undefinedResult op d values').testBit j := by
  have hbit : ∀ values, (lutResult undefinedResult op d values).testBit j =
      (decide (j < d) && entries[j]?.any fun entry => entry.evaluate values) := by
    intro values
    rw [lutResult, if_neg (by rw [hopcode]; exact nofun), hopcode]
    show ((truncate (lutBits entries values : Nat) d) % 2 ^ d).testBit j = _
    rw [Nat.testBit_mod_two_pow, testBit_truncate, ← Bool.and_assoc, Bool.and_self]
    show (_ && (lutBits entries values).testBit j) = _
    rw [testBit_lutBits]
  rw [hbit, hbit]
  cases hj : entries[j]? with
  | none => rfl
  | some entry => rw [Option.any_some, Option.any_some, (hsame entry hj).evaluate_eq]

end Entries

end Kanagawa.Lower.UnusedBits
