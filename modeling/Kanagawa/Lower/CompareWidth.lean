/-
  Kanagawa.Lower.CompareWidth

  Comparisons of operands of one width (`UpdateCompareConditionList`, `lower.cpp`).

  An operand that is narrower than the comparison is moved to a register of its width, extended by
  its own flag; if one operand is signed, both are compared as signed.  The unsigned one of a mixed
  pair gets a leading zero, so the integers that are compared stay the same.  `ImplementBinaryOp`
  compares patterns for `EQ` and `NE`, and that is where the two differ.
-/
import Kanagawa.Arith.Typed
import Kanagawa.IR.Emission
import Kanagawa.Lower.CircuitOps
import Kanagawa.Optimize.DecomposeCompare

namespace Kanagawa.Lower

open IR IR.Emission Lib.Except Optimize RegisterWidth

/-! ## The pass -/

/-- `desiredCmpWidth`. -/
def desiredCmpWidth (lhsSigned rhsSigned : Bool) (lhsWidth rhsWidth : Nat) : Nat :=
  let promoteToSigned := lhsSigned ^^ rhsSigned
  let maxOpWidth := max lhsWidth rhsWidth
  if !promoteToSigned then maxOpWidth
  else if (!lhsSigned && lhsWidth = maxOpWidth) || (!rhsSigned && rhsWidth = maxOpWidth) then
    -- The unsigned operand is the wider one and needs a leading zero
    maxOpWidth + 1
  else maxOpWidth

/-- The loop body over the two operands: the operation with its new source, and the `Mov`. -/
def equalizeOperand (desired : Nat) (s : Operation × Emission) (opIdx : Nat) :
    Operation × Emission :=
  let src := s.1.src.getD opIdx (.literal ⟨0, 1⟩)
  if desired ≠ src.width s.2.table then
    let mov := s.2.mov desired src (s.1.shouldSignExtend opIdx)
    ({ s.1 with src := s.1.src.set opIdx (.register mov.1) }, mov.2)
  else s

/-- The loop over the two operands of a comparison. -/
def equalizeOperands (table : RegisterTable) (op : Operation) : Operation × Emission :=
  let lhsWidth := (op.src.getD 0 (.literal ⟨0, 1⟩)).width table
  let rhsWidth := (op.src.getD 1 (.literal ⟨0, 1⟩)).width table
  let desired :=
    desiredCmpWidth (op.shouldSignExtend 0) (op.shouldSignExtend 1) lhsWidth rhsWidth
  [0, 1].foldl (equalizeOperand desired) (op, ⟨table, []⟩)

/-- The loop body over the operations: what takes the place of one of them. -/
def updateCompareCondition (table : RegisterTable) (op : Operation) :
    Except Failure Emission :=
  match op.opcode with
  | .binaryOp type =>
      if isComparison type then do
        assert (op.src.length = 2)
        assert (op.dst.length = 1)
        let s := equalizeOperands table op
        -- Both operands are treated as signed
        return s.2.push { s.1 with
          signExtendSourceMask :=
            if op.signExtendSourceMask ≠ 0 then 3 else op.signExtendSourceMask }
      else return ⟨table, [op]⟩
  | _ => return ⟨table, [op]⟩

/-- `UpdateCompareConditionList`. -/
def updateCompareConditionList (table : RegisterTable) : List Operation → Except Failure Emission
  | [] => return ⟨table, []⟩
  | op :: ops => do
      let e ← updateCompareCondition table op
      let rest ← updateCompareConditionList e.table ops
      return ⟨rest.table, e.ops ++ rest.ops⟩

/-! ## Widths -/

variable {table : RegisterTable} {regs : Nat → Nat} {lhs rhs : SourceOperand} {l r : Literal}
  {dst : Nat} {op : Operation} {type : BinaryOpType}

/-- The comparison is wide enough for both promoted operands. -/
theorem promoted_le_desired (s t : Bool) (m n : Nat) :
    getPromotedWidth m s (s || t) ≤ desiredCmpWidth s t m n ∧
      getPromotedWidth n t (s || t) ≤ desiredCmpWidth s t m n := by
  rw [getPromotedWidth, getPromotedWidth, desiredCmpWidth]
  cases s <;> cases t <;> simp <;> split <;> omega

/-- An operand as the comparison gets it. -/
def equalized (w : Nat) (signed : Bool) (l : Literal) : Literal :=
  if w ≠ l.width then ⟨truncate (l.denote signed) w, w⟩ else l

theorem equalized_width (w : Nat) (signed : Bool) (l : Literal) :
    (equalized w signed l).width = w := by
  rw [equalized]
  split
  next => rfl
  next h => exact (not_not.mp h).symm

/-- The operand denotes the same integer under the common flag. -/
theorem denote_equalized (hl : l.WellFormed) {signed eitherSigned : Bool}
    (hsigned : signed = true → eitherSigned = true) {w : Nat}
    (hw : getPromotedWidth l.width signed eitherSigned ≤ w) :
    (equalized w signed l).denote eitherSigned = l.denote signed := by
  have hpos : 0 < w := by
    have hlpos := hl.width_pos
    rw [getPromotedWidth] at hw
    split at hw <;> omega
  rw [equalized]
  split
  next =>
    apply denote_truncate_of_inType hpos
    have hbounds := denote_promoted hl hsigned hw
    rw [InType]
    cases eitherSigned with
    | true => exact hbounds
    | false => exact hbounds
  next heq =>
    -- An operand of the full width has the common flag already
    cases signed with
    | true => rw [hsigned rfl]
    | false =>
        cases eitherSigned with
        | false => rfl
        | true =>
            have hwide : l.width + 1 ≤ w := hw
            omega

/-! ## The operations of a comparison -/

/-- A comparison of literals and of registers that exist. -/
structure ComparisonShape (table : RegisterTable) (op : Operation) (type : BinaryOpType)
    (src0 src1 : SourceOperand) (dst : Nat) : Prop where
  opcode_eq : op.opcode = .binaryOp type
  comparison : isComparison type = true
  src_eq : op.src = [src0, src1]
  dst_eq : op.dst = [.register dst]
  mask_lt : op.signExtendSourceMask < 4
  src_shape : ∀ s ∈ [src0, src1], SourceShape table s
  src_allocated : ∀ s ∈ [src0, src1], ∀ r, s = .register r → r < table.length
  dst_allocated : dst < table.length
  dst_pos : 0 < (table.desc dst).width

/-- What one operand of the comparison becomes. -/
theorem equalizeOperand_reads {e : Emission} {start regs : Nat → Nat} (hruns : Runs e start regs)
    {s : Operation} {opIdx : Nat} {src : SourceOperand} (hsrc : s.src[opIdx]? = some src)
    (hl : Reads e regs src l) (w : Nat) :
    ∃ src' regs', (equalizeOperand w (s, e) opIdx).1 = { s with src := s.src.set opIdx src' } ∧
      Extends e (equalizeOperand w (s, e) opIdx).2 start regs regs' ∧
      Reads (equalizeOperand w (s, e) opIdx).2 regs' src'
        (equalized w (s.shouldSignExtend opIdx) l) := by
  have hget : s.src.getD opIdx (.literal ⟨0, 1⟩) = src := by
    rw [List.getD_eq_getElem?_getD, hsrc]
    rfl
  rw [equalizeOperand, hget, hl.width_eq, equalized]
  dsimp only
  by_cases hw : w ≠ l.width
  · rw [if_pos hw, if_pos hw]
    obtain ⟨regs', hextends, hreads⟩ := mov_extends hruns hl w (s.shouldSignExtend opIdx)
    exact ⟨_, regs', rfl, hextends, hreads⟩
  · rw [if_neg hw, if_neg hw]
    refine ⟨src, regs, ?_, Extends.refl hruns, hl⟩
    have hset : s.src.set opIdx src = s.src := by
      obtain ⟨hlt, heq⟩ := List.getElem?_eq_some_iff.mp hsrc
      rw [← heq]
      exact List.set_getElem_self hlt
    rw [hset]

/-- The width of an operand stays the same when more registers are allocated. -/
theorem width_of_grow {e : Emission} {s : SourceOperand} (h : Reads e regs s l)
    {table' : RegisterTable} (hgrow : e.table <+: table') : s.width table' = l.width :=
  Reads.width_eq (e := ⟨table', []⟩)
    ⟨fun r hr => Nat.lt_of_lt_of_le (h.allocated r hr) hgrow.length_le, h.of_grow hgrow⟩

theorem exactBinaryOp_defined (h : isComparison type = true) (b : Int) : type.Defined b := by
  cases type with
  | eq | ne | gt | ge | lt | le => exact trivial
  | _ => exact nomatch h

/-- The flags of both operands, from the mask of the operation. -/
theorem mask_ne_zero_iff (hmask : op.signExtendSourceMask < 4) :
    (if op.signExtendSourceMask ≠ 0 then 3 else op.signExtendSourceMask) =
      if (op.shouldSignExtend 0 || op.shouldSignExtend 1) then 3 else 0 := by
  rw [Operation.shouldSignExtend, Operation.shouldSignExtend]
  generalize op.signExtendSourceMask = mask at hmask
  rcases mask with _ | _ | _ | _ | mask
  · rfl
  · rfl
  · rfl
  · rfl
  · omega

section Comparison

variable {src0 src1 : SourceOperand} {a b : Literal}
  (hshape : ComparisonShape table op type src0 src1 dst)

include hshape

/-- What both operands become. -/
theorem equalizeOperands_reads (ha : src0.literalIn table regs = some a)
    (hb : src1.literalIn table regs = some b) :
    ∃ src0' src1' regs',
      (equalizeOperands table op).1 = { op with src := [src0', src1'] } ∧
      Extends ⟨table, []⟩ (equalizeOperands table op).2 regs regs regs' ∧
      Reads (equalizeOperands table op).2 regs' src0'
        (equalized (desiredCmpWidth (op.shouldSignExtend 0) (op.shouldSignExtend 1) a.width b.width)
          (op.shouldSignExtend 0) a) ∧
      Reads (equalizeOperands table op).2 regs' src1'
        (equalized (desiredCmpWidth (op.shouldSignExtend 0) (op.shouldSignExtend 1) a.width b.width)
          (op.shouldSignExtend 1) b) := by
  have hra : Reads ⟨table, []⟩ regs src0 a := ⟨hshape.src_allocated src0 (by simp), ha⟩
  have hrb : Reads ⟨table, []⟩ regs src1 b := ⟨hshape.src_allocated src1 (by simp), hb⟩
  have hstart : Runs ⟨table, []⟩ regs regs := fun _ _ => rfl
  have hwidth0 : (op.src.getD 0 (.literal ⟨0, 1⟩)).width table = a.width := by
    rw [hshape.src_eq]
    exact hra.width_eq
  have hwidth1 : (op.src.getD 1 (.literal ⟨0, 1⟩)).width table = b.width := by
    rw [hshape.src_eq]
    exact hrb.width_eq
  rw [equalizeOperands, hwidth0, hwidth1]
  dsimp only [List.foldl_cons, List.foldl_nil]
  generalize desiredCmpWidth (op.shouldSignExtend 0) (op.shouldSignExtend 1) a.width b.width = w
  have hget0 : op.src[0]? = some src0 := by
    rw [hshape.src_eq]
    rfl
  obtain ⟨src0', regs1, hop, hextends, hreads⟩ := equalizeOperand_reads hstart hget0 hra w
  generalize equalizeOperand w (op, ⟨table, []⟩) 0 = s at hop hextends hreads ⊢
  obtain ⟨op1, e1⟩ := s
  dsimp only at hop hextends hreads ⊢
  have hget1 : op1.src[1]? = some src1 := by
    rw [hop, hshape.src_eq]
    rfl
  obtain ⟨src1', regs2, hop', hextends', hreads'⟩ :=
    equalizeOperand_reads hextends.runs hget1 (hextends.keeps hrb) w
  refine ⟨src0', src1', regs2, ?_, hextends.trans hextends', hextends'.keeps hreads, ?_⟩
  · rw [hop', hop, hshape.src_eq]
    rfl
  · have hflag : op1.shouldSignExtend 1 = op.shouldSignExtend 1 := by
      rw [hop]
      rfl
    rw [hflag] at hreads'
    exact hreads'

/-- The comparison, of operands of one width that are both signed or both unsigned, still
    compares the same integers. -/
theorem updateCompareCondition_runs (ha : src0.literalIn table regs = some a)
    (hb : src1.literalIn table regs = some b) :
    ∃ cmp e, updateCompareCondition table op = .ok e ∧
      e.ops = (equalizeOperands table op).2.ops ++ [cmp] ∧ table <+: e.table ∧
      cmp.opcode = op.opcode ∧ cmp.dst = op.dst ∧
      (∃ src0' src1', cmp.src = [src0', src1'] ∧
        ∀ table', e.table <+: table' → src0'.width table' = src1'.width table') ∧
      (cmp.signExtendSourceMask = 0 ∨ cmp.signExtendSourceMask = 3) ∧
      ∃ regs', Runs e regs regs' ∧
        regs' dst = truncate (exactBinaryOp type (a.denote (op.shouldSignExtend 0))
          (b.denote (op.shouldSignExtend 1))) (table.desc dst).width ∧
        ∀ r, r < table.length → r ≠ dst → regs' r = regs r := by
  obtain ⟨src0', src1', regs1, hop, hextends, hreads0, hreads1⟩ :=
    equalizeOperands_reads hshape ha hb
  have hwa := literalIn_wellFormed (hshape.src_shape src0 (by simp)) ha
  have hwb := literalIn_wellFormed (hshape.src_shape src1 (by simp)) hb
  obtain ⟨hle0, hle1⟩ := promoted_le_desired (op.shouldSignExtend 0) (op.shouldSignExtend 1)
    a.width b.width
  have hsigned0 : op.shouldSignExtend 0 = true →
      (op.shouldSignExtend 0 || op.shouldSignExtend 1) = true := fun h => by rw [h, Bool.true_or]
  have hsigned1 : op.shouldSignExtend 1 = true →
      (op.shouldSignExtend 0 || op.shouldSignExtend 1) = true := fun h => by rw [h, Bool.or_true]
  have hdenote0 := denote_equalized hwa hsigned0 hle0
  have hdenote1 := denote_equalized hwb hsigned1 hle1
  have hok : updateCompareCondition table op =
      .ok ((equalizeOperands table op).2.push { (equalizeOperands table op).1 with
        signExtendSourceMask :=
          if op.signExtendSourceMask ≠ 0 then 3 else op.signExtendSourceMask }) := by
    rw [updateCompareCondition, hshape.opcode_eq]
    dsimp only
    rw [if_pos hshape.comparison, hshape.src_eq, hshape.dst_eq]
    rfl
  rw [mask_ne_zero_iff hshape.mask_lt, hop] at hok
  generalize op.shouldSignExtend 0 = s0 at *
  generalize op.shouldSignExtend 1 = s1 at *
  generalize desiredCmpWidth s0 s1 a.width b.width = w at *
  have hflags : (if (s0 || s1) = true then 3 else 0).testBit 0 = (s0 || s1) ∧
      (if (s0 || s1) = true then 3 else 0).testBit 1 = (s0 || s1) := by
    cases s0 || s1
    · exact ⟨rfl, rfl⟩
    · exact ⟨rfl, rfl⟩
  have hdst : dst < (equalizeOperands table op).2.table.length :=
    Nat.lt_of_lt_of_le hshape.dst_allocated hextends.grows.length_le
  have hwidth : ((equalizeOperands table op).2.table.desc dst).width = (table.desc dst).width := by
    rw [desc_of_grow hextends.grows hshape.dst_allocated]
  -- The comparison of what the operands have become
  have hresult : combinationalResult op.opcode (if (s0 || s1) = true then 3 else 0)
      ((equalizeOperands table op).2.table.desc dst).width [equalized w s0 a, equalized w s1 b] =
        some (truncate (exactBinaryOp type (a.denote s0) (b.denote s1)) (table.desc dst).width) := by
    rw [hshape.opcode_eq, combinationalResult, if_pos (exactBinaryOp_defined hshape.comparison _),
      hflags.1, hflags.2, hdenote0, hdenote1, hwidth]
  have hdst' : ({ op with
      src := [src0', src1']
      signExtendSourceMask := if (s0 || s1) = true then 3 else 0 } : Operation).dst =
        [.register dst] := hshape.dst_eq
  obtain ⟨hwrites, -⟩ := push_writes hextends.runs hdst hdst'
    (.cons hreads0 (.cons hreads1 .nil)) hresult
  refine ⟨_, _, hok, rfl, hextends.grows, rfl, rfl, ⟨src0', src1', rfl, ?_⟩, ?_, _,
    hwrites.runs, Function.update_self .., fun r hr hne => ?_⟩
  · intro table' hgrow
    have hgrow' : (equalizeOperands table op).2.table <+: table' := hgrow
    rw [width_of_grow hreads0 hgrow', width_of_grow hreads1 hgrow', equalized_width,
      equalized_width]
  · show (if (s0 || s1) = true then 3 else 0) = 0 ∨ (if (s0 || s1) = true then 3 else 0) = 3
    split
    · exact .inr rfl
    · exact .inl rfl
  · rw [Function.update_of_ne hne]
    exact hextends.frame r hr

/-- In the operations that the pass leaves, a comparison compares operands of one width, both
    signed or both unsigned, and its result is the one of the integers; that is the one
    `ImplementBinaryOp` produces exactly where the reference arithmetic is exact. -/
theorem updateCompareCondition_implements_iff :
    ∃ moves cmp e, updateCompareCondition table op = .ok e ∧ e.ops = moves ++ [cmp] ∧
      table <+: e.table ∧ cmp.opcode = op.opcode ∧ cmp.dst = op.dst ∧
      (∃ src0' src1', cmp.src = [src0', src1'] ∧
        ∀ table', e.table <+: table' → src0'.width table' = src1'.width table') ∧
      (cmp.signExtendSourceMask = 0 ∨ cmp.signExtendSourceMask = 3) ∧
      ∀ regs a b, src0.literalIn table regs = some a → src1.literalIn table regs = some b →
        ∃ regs', Runs e regs regs' ∧ (∀ r, r < table.length → r ≠ dst → regs' r = regs r) ∧
          (implementBinaryOp a b (table.desc dst).width (op.shouldSignExtend 0)
              (op.shouldSignExtend 1) type = .ok (regs' dst) ↔
            BinaryOpInRange a b (table.desc dst).width (op.shouldSignExtend 0)
              (op.shouldSignExtend 1) type) := by
  obtain ⟨a0, ha0⟩ := literalIn_exists (hshape.src_shape src0 (by simp)) fun _ => 0
  obtain ⟨b0, hb0⟩ := literalIn_exists (hshape.src_shape src1 (by simp)) fun _ => 0
  obtain ⟨cmp, e, hok, hops, hgrows, hopcode, hdst, hsrc, hmask, -⟩ :=
    updateCompareCondition_runs hshape ha0 hb0
  refine ⟨_, cmp, e, hok, hops, hgrows, hopcode, hdst, hsrc, hmask, fun regs a b ha hb => ?_⟩
  obtain ⟨cmp', e', hok', -, -, -, -, -, -, regs', hruns, hresult, hframe⟩ :=
    updateCompareCondition_runs hshape ha hb
  rw [hok, Except.ok.injEq] at hok'
  subst hok'
  refine ⟨regs', hruns, hframe, ?_⟩
  rw [hresult, truncate_eq]
  exact implementBinaryOp_exact_iff (literalIn_wellFormed (hshape.src_shape src0 (by simp)) ha)
    (literalIn_wellFormed (hshape.src_shape src1 (by simp)) hb) _ _ hshape.dst_pos type
    (exactBinaryOp_defined hshape.comparison _)

end Comparison

/-! ## The list of operations -/

/-- What takes the place of an operation of a list stands between what takes the place of the
    others; the table only grows. -/
theorem updateCompareConditionList_append {before after : List Operation} {e : Emission} :
    ∀ {table : RegisterTable}, updateCompareConditionList table (before ++ op :: after) = .ok e →
      ∃ done here rest, updateCompareConditionList table before = .ok done ∧
        updateCompareCondition done.table op = .ok here ∧
        updateCompareConditionList here.table after = .ok rest ∧
        e.table = rest.table ∧ e.ops = done.ops ++ here.ops ++ rest.ops := by
  induction before generalizing e with
  | nil =>
      intro table h
      rw [List.nil_append, updateCompareConditionList, bind_eq_ok_iff] at h
      obtain ⟨here, hhere, h⟩ := h
      rw [bind_eq_ok_iff] at h
      obtain ⟨rest, hrest, h⟩ := h
      rw [← Except.ok.inj h]
      exact ⟨⟨table, []⟩, here, rest, rfl, hhere, hrest, rfl, rfl⟩
  | cons op' before ih =>
      intro table h
      rw [List.cons_append, updateCompareConditionList, bind_eq_ok_iff] at h
      obtain ⟨first, hfirst, h⟩ := h
      rw [bind_eq_ok_iff] at h
      obtain ⟨others, hothers, h⟩ := h
      obtain ⟨done, here, rest, hdone, hhere, hrest, htable, hops⟩ := ih hothers
      refine ⟨⟨done.table, first.ops ++ done.ops⟩, here, rest, ?_, hhere, hrest, ?_, ?_⟩
      · rw [updateCompareConditionList, hfirst, ok_bind, hdone, ok_bind]
        rfl
      · rw [← Except.ok.inj h]
        exact htable
      · rw [← Except.ok.inj h]
        show first.ops ++ others.ops = _
        rw [hops, List.append_assoc, List.append_assoc, List.append_assoc]

/-- A comparison keeps its shape when more registers are allocated. -/
theorem ComparisonShape.of_grow {src0 src1 : SourceOperand}
    (h : ComparisonShape table op type src0 src1 dst) {table' : RegisterTable}
    (hgrow : table <+: table') : ComparisonShape table' op type src0 src1 dst where
  opcode_eq := h.opcode_eq
  comparison := h.comparison
  src_eq := h.src_eq
  dst_eq := h.dst_eq
  mask_lt := h.mask_lt
  src_shape s hs := by
    have hshape := h.src_shape s hs
    cases s with
    | literal l => exact hshape
    | register r =>
        rw [SourceShape, desc_of_grow hgrow (h.src_allocated _ hs r rfl)]
        exact hshape
    | fifo f => exact hshape
    | stringLiteral s => exact hshape
  src_allocated s hs r hr := Nat.lt_of_lt_of_le (h.src_allocated s hs r hr) hgrow.length_le
  dst_allocated := Nat.lt_of_lt_of_le h.dst_allocated hgrow.length_le
  dst_pos := by
    rw [desc_of_grow hgrow h.dst_allocated]
    exact h.dst_pos

theorem equalizeOperand_grows (w : Nat) (s : Operation × Emission) (opIdx : Nat) :
    s.2.table <+: (equalizeOperand w s opIdx).2.table := by
  rw [equalizeOperand]
  dsimp only
  split
  · exact List.prefix_append _ _
  · exact List.prefix_rfl

theorem updateCompareCondition_grows {e : Emission} (h : updateCompareCondition table op = .ok e) :
    table <+: e.table := by
  have hsame : ∀ {ops}, (pure ⟨table, ops⟩ : Except Failure Emission) = .ok e → table <+: e.table :=
    fun hok => Except.ok.inj hok ▸ List.prefix_rfl
  rw [updateCompareCondition] at h
  split at h
  next type _ =>
    split at h
    next =>
      simp only [bind_eq_ok_iff] at h
      obtain ⟨_, -, _, -, h⟩ := h
      rw [← Except.ok.inj h]
      exact (equalizeOperand_grows _ (op, ⟨table, []⟩) 0).trans (equalizeOperand_grows _ _ 1)
    next => exact hsame h
  next => exact hsame h

theorem updateCompareConditionList_grows (ops : List Operation) :
    ∀ {table : RegisterTable} {e : Emission}, updateCompareConditionList table ops = .ok e →
      table <+: e.table := by
  induction ops with
  | nil =>
      intro table e h
      rw [← Except.ok.inj h]
  | cons op ops ih =>
      intro table e h
      rw [updateCompareConditionList, bind_eq_ok_iff] at h
      obtain ⟨first, hfirst, h⟩ := h
      rw [bind_eq_ok_iff] at h
      obtain ⟨rest, hrest, h⟩ := h
      have hgrow := (updateCompareCondition_grows hfirst).trans (ih hrest)
      rw [← Except.ok.inj h]
      show table <+: rest.table
      exact hgrow

/-- After the pass every comparison of the list has operands of one width and one sign, and for
    all values of the registers the result that `ImplementBinaryOp` gives for the original one,
    exactly where the reference arithmetic is exact. -/
theorem updateCompareConditionList_implements_iff {before after : List Operation} {e : Emission}
    (hok : updateCompareConditionList table (before ++ op :: after) = .ok e)
    {src0 src1 : SourceOperand} (hshape : ComparisonShape table op type src0 src1 dst) :
    ∃ done moves cmp rest, e.ops = done ++ moves ++ [cmp] ++ rest ∧
      cmp.opcode = op.opcode ∧ cmp.dst = op.dst ∧
      (∃ src0' src1', cmp.src = [src0', src1'] ∧ src0'.width e.table = src1'.width e.table) ∧
      (cmp.signExtendSourceMask = 0 ∨ cmp.signExtendSourceMask = 3) ∧
      ∀ regs a b, src0.literalIn table regs = some a → src1.literalIn table regs = some b →
        ∃ regs', runCombinational e.table regs (moves ++ [cmp]) = some regs' ∧
          (∀ r, r < table.length → r ≠ dst → regs' r = regs r) ∧
          (implementBinaryOp a b (table.desc dst).width (op.shouldSignExtend 0)
              (op.shouldSignExtend 1) type = .ok (regs' dst) ↔
            BinaryOpInRange a b (table.desc dst).width (op.shouldSignExtend 0)
              (op.shouldSignExtend 1) type) := by
  obtain ⟨done, here, rest, hdone, hhere, hrest, htable, hops⟩ :=
    updateCompareConditionList_append hok
  have hgrow := updateCompareConditionList_grows before hdone
  have hgrow' := updateCompareConditionList_grows after hrest
  obtain ⟨moves, cmp, e', he', hmoves, -, hopcode, hdst, ⟨src0', src1', hsrc, hwidths⟩, hmask,
    hruns⟩ := updateCompareCondition_implements_iff (hshape.of_grow hgrow)
  rw [hhere, Except.ok.injEq] at he'
  subst he'
  refine ⟨done.ops, moves, cmp, rest.ops, ?_, hopcode, hdst, ⟨src0', src1', hsrc, ?_⟩, hmask,
    fun regs a b ha hb => ?_⟩
  · rw [hops, hmoves, List.append_assoc, List.append_assoc, List.append_assoc, List.append_assoc]
  · exact hwidths e.table (htable ▸ hgrow')
  · -- The operands hold the same in the larger tables
    have hreads : ∀ s ∈ [src0, src1], ∀ l, s.literalIn table regs = some l →
        s.literalIn done.table regs = some l := fun s hs l hl =>
      Reads.of_grow (e := ⟨table, []⟩) ⟨hshape.src_allocated s hs, hl⟩ hgrow
    obtain ⟨regs', hrun, hframe, hiff⟩ := hruns regs a b (hreads src0 (by simp) a ha)
      (hreads src1 (by simp) b hb)
    rw [desc_of_grow hgrow hshape.dst_allocated] at hiff
    refine ⟨regs', ?_, fun r hr => hframe r (Nat.lt_of_lt_of_le hr hgrow.length_le), hiff⟩
    rw [← hmoves]
    exact hrun e.table (htable ▸ hgrow')

/-- `a < b` for four bits each, the first signed. -/
def mixedOrder : Operation :=
  { opcode := .binaryOp .lt, signExtendSourceMask := 1
    src := [.register 0, .register 1], dst := [.register 2] }

theorem mixedOrder_shape :
    ComparisonShape twoNibbles mixedOrder .lt (.register 0) (.register 1) 2 where
  opcode_eq := rfl
  comparison := rfl
  src_eq := rfl
  dst_eq := rfl
  mask_lt := by decide
  src_shape s hs := by
    rcases List.mem_pair.mp hs with rfl | rfl
    · exact ⟨by decide, by decide⟩
    · exact ⟨by decide, by decide⟩
  src_allocated s hs r hr := by
    rcases List.mem_pair.mp hs with rfl | rfl
    · exact SourceOperand.register.inj hr ▸ by decide
    · exact SourceOperand.register.inj hr ▸ by decide
  dst_allocated := by decide
  dst_pos := by decide

theorem updateCompareConditionList_implements_iff_mixedOrder :
    ∃ e moves cmp, updateCompareConditionList twoNibbles [mixedOrder] = .ok e ∧
      cmp.opcode = mixedOrder.opcode ∧
      (∃ src0 src1, cmp.src = [src0, src1] ∧ src0.width e.table = src1.width e.table) ∧
      ∃ regs, runCombinational e.table (fun _ => 15) (moves ++ [cmp]) = some regs ∧
        (implementBinaryOp ⟨15, 4⟩ ⟨15, 4⟩ 1 true false .lt = .ok (regs 2) ↔
          BinaryOpInRange ⟨15, 4⟩ ⟨15, 4⟩ 1 true false .lt) := by
  obtain ⟨e, he⟩ : ∃ e, updateCompareConditionList twoNibbles ([] ++ mixedOrder :: []) = .ok e :=
    ⟨_, rfl⟩
  obtain ⟨done, moves, cmp, rest, -, hopcode, -, hsrc, -, hruns⟩ :=
    updateCompareConditionList_implements_iff he mixedOrder_shape
  obtain ⟨regs, hrun, -, hiff⟩ := hruns (fun _ => 15) ⟨15, 4⟩ ⟨15, 4⟩ rfl rfl
  exact ⟨e, moves, cmp, he, hopcode, hsrc, regs, hrun, hiff⟩

/-- Minus one and fifteen have the same pattern: `ImplementBinaryOp` takes them for equal, and
    the comparison of five bits does not. -/
theorem updateCompareConditionList_not_implements :
    implementBinaryOp ⟨15, 4⟩ ⟨15, 4⟩ 1 true false .eq = .ok 1 ∧
      (updateCompareConditionList twoNibbles [mixedEquality]).map
          (fun e => (runCombinational e.table (fun _ => 15) e.ops).map fun regs => regs 2)
        = .ok (some 0) := by
  constructor <;> decide +kernel

end Kanagawa.Lower
