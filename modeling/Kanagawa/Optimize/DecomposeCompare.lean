/-
  Kanagawa.Optimize.DecomposeCompare

  Comparisons as subtractions and reductions (`optimize.cpp`,
  `DecomposeCompareCarryChain` and `DecomposeCompareEQ`).

  An order comparison becomes the sign of a difference that is one bit wider
  than both promoted operands; an equality becomes a reduction of the bits in
  which the promoted operands differ.  Promotion gives an unsigned operand a
  leading zero when the other one is signed, so both decide the comparison of
  the integers.  `ImplementBinaryOp` compares patterns for `EQ` and `NE`, and
  that is where the two differ.
-/
import Kanagawa.Optimize.AlgebraicIdentities
import Kanagawa.Optimize.Reduction

namespace Kanagawa.Optimize

open IR Lib.Bits Lib.Except

/-! ## The passes -/

/-- `GetPromotedWidth`. -/
def getPromotedWidth (sizeIn : Nat) (operandSigned resultSigned : Bool) : Nat :=
  if resultSigned && !operandSigned then sizeIn + 1 else sizeIn

/-- How an order comparison looks at the sign of a difference: whether the right operand is
    the left one of the subtraction, and whether the sign bit is inverted. -/
def compareOrder : BinaryOpType → Except Failure (Bool × Bool)
  | .gt => .ok (true, false)
  | .ge => .ok (false, true)
  | .lt => .ok (false, false)
  | .le => .ok (true, true)
  | _ => .error .assertion

/-- The subtraction, the shift and the last operation of `DecomposeCompareCarryChain`. -/
def compareBySign (table : RegisterTable) (lhs : SourceOperand) (lhsSigned : Bool)
    (rhs : SourceOperand) (rhsSigned invertSignBit : Bool) (dst : Nat) : Emission :=
  let eitherSigned := lhsSigned || rhsSigned
  let lhsWidth := getPromotedWidth (lhs.width table) lhsSigned eitherSigned
  let rhsWidth := getPromotedWidth (rhs.width table) rhsSigned eitherSigned
  let subResultWidth := max lhsWidth rhsWidth + 1
  let sub := (⟨table, []⟩ : Emission).binaryOp .sub subResultWidth lhs lhsSigned rhs rhsSigned
  let shift := sub.2.binaryOp .shr 1 (.register sub.1) false (sizeLiteral (subResultWidth - 1)) false
  shift.2.push (Operation.pushOperand
    { opcode := if invertSignBit then .unaryOp .invert else .mov, dst := [.register dst] }
    (.register shift.1) false)

/-- `DecomposeCompareCarryChain`. -/
def decomposeCompareCarryChain (table : RegisterTable) (op : Operation) :
    Except Failure Emission :=
  match op.opcode, op.src, op.dst with
  | .binaryOp type, [src0, src1], [.register dst] => do
      let (swap, invertSignBit) ← compareOrder type
      if swap then
        return compareBySign table src1 (op.shouldSignExtend 1) src0 (op.shouldSignExtend 0)
          invertSignBit dst
      else
        return compareBySign table src0 (op.shouldSignExtend 0) src1 (op.shouldSignExtend 1)
          invertSignBit dst
  | _, _, _ => .error .assertion

/-- The exclusive or of the operands and the reduction of its bits, inverted for `EQ`. -/
def compareByBits (luts : Option LutSize) (table : RegisterTable) (op : Operation)
    (type : BinaryOpType) (intermediateWidth dst : Nat) : Except Failure Emission :=
  -- Copies the sources and the sign extension mask
  let xorResult := (⟨table, []⟩ : Emission).emit { op with opcode := .binaryOp .xor }
    intermediateWidth
  if type = .eq then
    let invertResult := xorResult.2.emit
      { opcode := .unaryOp .invert, src := [.register xorResult.1] } intermediateWidth
    reduceBinaryOp luts invertResult.2 invertResult.1 .and dst
  else do
    assert (type = .ne)
    reduceBinaryOp luts xorResult.2 xorResult.1 .or dst

/-- `DecomposeCompareEQ`, on a device with or without lookup tables. -/
def decomposeCompareEQ (luts : Option LutSize) (table : RegisterTable) (op : Operation) :
    Except Failure Emission :=
  match op.opcode, op.src, op.dst with
  | .binaryOp type, [src0, src1], [.register dst] =>
      let eitherSigned := op.shouldSignExtend 0 || op.shouldSignExtend 1
      let lhsWidth := getPromotedWidth (src0.width table) (op.shouldSignExtend 0) eitherSigned
      let rhsWidth := getPromotedWidth (src1.width table) (op.shouldSignExtend 1) eitherSigned
      compareByBits luts table op type (max lhsWidth rhsWidth) dst
  | _, _, _ => .error .assertion

/-- The decomposition of a comparison, by its operator. -/
def decomposeCompare (luts : Option LutSize) (table : RegisterTable) (op : Operation) :
    Except Failure Emission :=
  match op.opcode with
  | .binaryOp .gt | .binaryOp .ge | .binaryOp .lt | .binaryOp .le =>
      decomposeCompareCarryChain table op
  | .binaryOp .eq | .binaryOp .ne => decomposeCompareEQ luts table op
  | _ => .error .assertion

/-- The operators that are comparisons. -/
def IsComparison (type : BinaryOpType) : Prop :=
  type ∈ [BinaryOpType.gt, .ge, .lt, .le, .eq, .ne]

/-! ## Promoted operands -/

theorem denote_lower {l : Literal} (hl : l.WellFormed) (signed : Bool) :
    (if signed then -2 ^ (l.width - 1) else 0 : Int) ≤ l.denote signed := by
  cases signed with
  | false =>
      rw [denote_false]
      exact Int.natCast_nonneg _
  | true =>
      have hpow : (2 : Int) ^ l.width = 2 * 2 ^ (l.width - 1) := by
        rw [← pow_succ', Nat.sub_add_cancel hl.width_pos]
      have hpos : (0 : Int) < 2 ^ (l.width - 1) := by positivity
      cases hneg : l.negative true with
      | true =>
          have hle : (2 : Int) ^ (l.width - 1) ≤ l.value := by
            exact_mod_cast Literal.le_value_of_negative hneg
          rw [Literal.denote_of_negative hneg, if_pos rfl]
          omega
      | false =>
          rw [Literal.denote_of_not_negative hneg, if_pos rfl]
          omega

theorem denote_upper {l : Literal} (hl : l.WellFormed) (signed : Bool) :
    l.denote signed < if signed then 2 ^ (l.width - 1) else 2 ^ l.width := by
  have hfits : (l.value : Int) < 2 ^ l.width := by exact_mod_cast hl.fits
  cases signed with
  | false =>
      rw [denote_false, if_neg (by decide)]
      exact hfits
  | true =>
      have hpow : (2 : Int) ^ l.width = 2 * 2 ^ (l.width - 1) := by
        rw [← pow_succ', Nat.sub_add_cancel hl.width_pos]
      have hpos : (0 : Int) < 2 ^ (l.width - 1) := by positivity
      rw [if_pos rfl]
      cases hneg : l.negative true with
      | true =>
          rw [Literal.denote_of_negative hneg]
          omega
      | false =>
          rw [Literal.denote_of_not_negative hneg]
          have hbit : l.value.testBit (l.width - 1) = false := by
            simpa [Literal.negative] using hneg
          have hlt : l.value < 2 ^ (l.width - 1) := by
            refine Nat.lt_pow_two_of_testBit _ fun i hi => ?_
            by_cases hi' : i = l.width - 1
            · rw [hi', hbit]
            · exact Nat.testBit_lt_two_pow (Nat.lt_of_lt_of_le hl.fits
                (Nat.pow_le_pow_right (by decide) (by omega)))
          exact_mod_cast hlt

/-- A promoted operand, as an unsigned integer when neither is signed and as a signed one
    otherwise. -/
theorem denote_promoted {l : Literal} (hl : l.WellFormed) {signed eitherSigned : Bool}
    (hsigned : signed = true → eitherSigned = true) {m : Nat}
    (hm : getPromotedWidth l.width signed eitherSigned ≤ m) :
    (if eitherSigned then -2 ^ (m - 1) else 0 : Int) ≤ l.denote signed ∧
      l.denote signed < if eitherSigned then 2 ^ (m - 1) else 2 ^ m := by
  have hpos := hl.width_pos
  have hlow := denote_lower hl signed
  have hhigh := denote_upper hl signed
  have hmono : ∀ {i j : Nat}, i ≤ j → (2 : Int) ^ i ≤ 2 ^ j := fun h =>
    pow_le_pow_right₀ (by decide) h
  cases signed with
  | true =>
      have heither := hsigned rfl
      subst heither
      simp only [getPromotedWidth, Bool.not_true, Bool.and_false, Bool.false_eq_true, if_false,
        if_true] at hm hlow hhigh ⊢
      have h := hmono (show l.width - 1 ≤ m - 1 by omega)
      omega
  | false =>
      simp only [Bool.false_eq_true, if_false] at hlow hhigh
      cases eitherSigned with
      | false =>
          simp only [getPromotedWidth, Bool.not_false, Bool.and_true, Bool.false_eq_true,
            if_false] at hm ⊢
          have h := hmono hm
          omega
      | true =>
          simp only [getPromotedWidth, Bool.not_false, Bool.and_self, if_true] at hm ⊢
          have h := hmono (show l.width ≤ m - 1 by omega)
          have hpos' : (0 : Int) < 2 ^ (m - 1) := by positivity
          omega

/-! ## Order comparisons -/

/-- A comparison of literals and of registers that exist, with a result of one bit. -/
structure CompareShape (table : RegisterTable) (op : Operation) (type : BinaryOpType)
    (src0 src1 : SourceOperand) (dst : Nat) : Prop where
  binaryOp : BinaryOpShape table op type src0 src1 (.register dst)
  comparison : IsComparison type
  src_allocated : ∀ s ∈ [src0, src1], ∀ r, s = .register r → r < table.length
  dst_allocated : dst < table.length
  dst_width : (table.desc dst).width = 1

section Compare

open Emission

variable {table : RegisterTable} {regs : Nat → Nat} {lhs rhs : SourceOperand} {l r : Literal}
  {lhsSigned rhsSigned : Bool} {dst : Nat}

/-- The operations have run from `regs`, and the destination holds a value. -/
structure ComparesTo (table : RegisterTable) (regs : Nat → Nat) (dst : Nat) (e : Emission)
    (regs' : Nat → Nat) (value : Nat) : Prop where
  runs : runCombinational e.table regs e.ops = some regs'
  result : regs' dst = value
  frame : ∀ r, r < table.length → r ≠ dst → regs' r = regs r

/-- The sign of the difference of two promoted operands. -/
theorem sign_of_difference (hl : l.WellFormed) (hr : r.WellFormed) {m : Nat}
    (hm : max (getPromotedWidth l.width lhsSigned (lhsSigned || rhsSigned))
      (getPromotedWidth r.width rhsSigned (lhsSigned || rhsSigned)) = m) :
    wordAt (truncate (l.denote lhsSigned - r.denote rhsSigned) (m + 1)) m 1
      = (decide (l.denote lhsSigned < r.denote rhsSigned)).toNat := by
  have hL := @denote_promoted _ hl lhsSigned (lhsSigned || rhsSigned)
    (by simp +contextual) m (by omega)
  have hR := @denote_promoted _ hr rhsSigned (lhsSigned || rhsSigned)
    (by simp +contextual) m (by omega)
  have hpow : (0 : Int) < 2 ^ m := by positivity
  have hhalf : 0 < m → (2 : Int) ^ m = 2 * 2 ^ (m - 1) := fun hm0 => by
    rw [← pow_succ', Nat.sub_add_cancel hm0]
  have hm0 : 0 < m := by
    have hpos := hl.width_pos
    have hle : l.width ≤ getPromotedWidth l.width lhsSigned (lhsSigned || rhsSigned) := by
      rw [getPromotedWidth]
      split <;> omega
    omega
  have hhalf := hhalf hm0
  have hrange : -2 ^ m ≤ l.denote lhsSigned - r.denote rhsSigned ∧
      l.denote lhsSigned - r.denote rhsSigned < 2 ^ m := by
    cases heither : (lhsSigned || rhsSigned) with
    | false =>
        rw [heither] at hL hR
        simp only [Bool.false_eq_true, if_false] at hL hR
        omega
    | true =>
        rw [heither] at hL hR
        simp only [if_true] at hL hR
        omega
  have htop := wordAt_truncate_top (l.denote lhsSigned - r.denote rhsSigned) m
  by_cases hlt : l.denote lhsSigned < r.denote rhsSigned
  · have hdiv : (l.denote lhsSigned - r.denote rhsSigned) / 2 ^ m = -1 := by
      have h1 : -1 ≤ (l.denote lhsSigned - r.denote rhsSigned) / 2 ^ m :=
        (Int.le_ediv_iff_mul_le hpow).mpr (by omega)
      have h2 : (l.denote lhsSigned - r.denote rhsSigned) / 2 ^ m < 0 :=
        Int.ediv_lt_of_lt_mul hpow (by omega)
      omega
    rw [hdiv, show (-1 : Int) % 2 = 1 by rfl] at htop
    rw [decide_eq_true hlt]
    exact_mod_cast htop
  · rw [Int.ediv_eq_zero_of_lt (by omega) hrange.2] at htop
    rw [decide_eq_false hlt]
    exact_mod_cast htop

/-- The subtraction and the look at its sign. -/
theorem compareBySign_comparesTo (hlhs : Reads ⟨table, []⟩ regs lhs l)
    (hrhs : Reads ⟨table, []⟩ regs rhs r) (hl : l.WellFormed) (hr : r.WellFormed)
    (hdst : dst < table.length) (hdstWidth : (table.desc dst).width = 1) (invertSignBit : Bool) :
    ∃ regs', ComparesTo table regs dst
      (compareBySign table lhs lhsSigned rhs rhsSigned invertSignBit dst) regs'
      (invertSignBit ^^ decide (l.denote lhsSigned < r.denote rhsSigned)).toNat := by
  have hlw : lhs.width table = l.width := hlhs.width_eq
  have hrw : rhs.width table = r.width := hrhs.width_eq
  let m := max (getPromotedWidth (lhs.width table) lhsSigned (lhsSigned || rhsSigned))
    (getPromotedWidth (rhs.width table) rhsSigned (lhsSigned || rhsSigned))
  have hstart : Runs ⟨table, []⟩ regs regs := fun _ _ => rfl
  obtain ⟨regs1, hext1, hdiff⟩ := @binaryOp_extends _ _ _ hstart .sub _ _
    lhsSigned rhsSigned _ _ (m + 1) hlhs hrhs trivial
  obtain ⟨regs2, hext2, hsign⟩ := @shr_extends _ _ _ hext1.runs _ _ false hdiff m 1
  have hm : max (getPromotedWidth l.width lhsSigned (lhsSigned || rhsSigned))
      (getPromotedWidth r.width rhsSigned (lhsSigned || rhsSigned)) = m := by
    rw [← hlw, ← hrw]
  rw [denote_false] at hsign
  dsimp only at hsign
  rw [exactBinaryOp, sign_of_difference hl hr hm] at hsign
  have hext := hext1.trans hext2
  have hdesc := desc_of_grow hext.grows hdst
  have hresult : combinationalResult (if invertSignBit then .unaryOp .invert else .mov) 0 1
      [⟨(decide (l.denote lhsSigned < r.denote rhsSigned)).toNat, 1⟩]
      = some (invertSignBit ^^ decide (l.denote lhsSigned < r.denote rhsSigned)).toNat := by
    cases invertSignBit <;> cases decide (l.denote lhsSigned < r.denote rhsSigned) <;>
      decide +kernel
  have hfinal := @push_runs _ _ _ hext2.runs (Operation.pushOperand
    { opcode := if invertSignBit then .unaryOp .invert else .mov, dst := [.register dst] }
    (.register _) false) _ _ _ rfl (.cons hsign .nil)
    (by rw [hdesc, hdstWidth]; exact hresult)
  refine ⟨_, hfinal, Function.update_self .., fun r' hr' hne => ?_⟩
  rw [Function.update_of_ne hne]
  exact hext.frame r' hr'

theorem CompareShape.reads {op : Operation} {type : BinaryOpType} {src0 src1 s : SourceOperand}
    (h : CompareShape table op type src0 src1 dst) (hs : s ∈ [src0, src1]) {v : Literal}
    (hv : s.literalIn table regs = some v) : Reads ⟨table, []⟩ regs s v :=
  ⟨h.src_allocated s hs, hv⟩

theorem truncate_ite_one (P : Prop) [Decidable P] :
    truncate (if P then 1 else 0) 1 = (decide P).toNat := by
  by_cases h : P
  · simp only [h, if_true, decide_true]
    rfl
  · simp only [h, if_false, decide_false]
    rfl

/-- An order comparison ends in the truth value of the comparison of integers. -/
theorem decomposeCompareCarryChain_runs {op : Operation} {type : BinaryOpType}
    {src0 src1 : SourceOperand} {a b : Literal} (hshape : CompareShape table op type src0 src1 dst)
    (htype : type ∈ [BinaryOpType.gt, .ge, .lt, .le])
    (ha : src0.literalIn table regs = some a) (hb : src1.literalIn table regs = some b) :
    ∃ e regs', decomposeCompareCarryChain table op = .ok e ∧
      ComparesTo table regs dst e regs' (truncate (exactBinaryOp type
        (a.denote (op.shouldSignExtend 0)) (b.denote (op.shouldSignExtend 1))) 1) := by
  have hra := hshape.reads (by simp) ha
  have hrb := hshape.reads (by simp) hb
  have hwa := literalIn_wellFormed hshape.binaryOp.src0_shape ha
  have hwb := literalIn_wellFormed hshape.binaryOp.src1_shape hb
  obtain ⟨regs01, h01⟩ := @compareBySign_comparesTo _ _ _ _ _ _ (op.shouldSignExtend 0)
    (op.shouldSignExtend 1) _ hra hrb hwa hwb hshape.dst_allocated hshape.dst_width
    (decide (type = .ge))
  obtain ⟨regs10, h10⟩ := @compareBySign_comparesTo _ _ _ _ _ _ (op.shouldSignExtend 1)
    (op.shouldSignExtend 0) _ hrb hra hwb hwa hshape.dst_allocated hshape.dst_width
    (decide (type = .le))
  rw [decomposeCompareCarryChain, hshape.binaryOp.opcode_eq, hshape.binaryOp.src_eq,
    hshape.binaryOp.dst_eq]
  cases type with
  | gt =>
      refine ⟨_, regs10, rfl, h10.runs, ?_, h10.frame⟩
      rw [h10.result, exactBinaryOp, truncate_ite_one]
      simp
  | ge =>
      refine ⟨_, regs01, rfl, h01.runs, ?_, h01.frame⟩
      rw [h01.result, exactBinaryOp, truncate_ite_one]
      simp only [decide_true, Bool.true_xor, ← decide_not, Int.not_lt, ge_iff_le]
  | lt =>
      refine ⟨_, regs01, rfl, h01.runs, ?_, h01.frame⟩
      rw [h01.result, exactBinaryOp, truncate_ite_one]
      simp
  | le =>
      refine ⟨_, regs10, rfl, h10.runs, ?_, h10.frame⟩
      rw [h10.result, exactBinaryOp, truncate_ite_one]
      simp only [decide_true, Bool.true_xor, ← decide_not, Int.not_lt]
  | _ => simp at htype

/-! ## Equality -/

/-- The exclusive or of integers, in the bits of a register. -/
theorem truncate_xor (x y : Int) (m : Nat) :
    truncate (Int.xor x y) m = truncate x m ^^^ truncate y m := by
  have hx : x ≡ (truncate x m : Nat) [ZMOD 2 ^ m] := by
    rw [natCast_truncate]
    exact (Int.mod_modEq _ _).symm
  have hy : y ≡ (truncate y m : Nat) [ZMOD 2 ^ m] := by
    rw [natCast_truncate]
    exact (Int.mod_modEq _ _).symm
  have hbits := bitwise_modEq xor m hx hy
  rw [Int.bitwise_xor] at hbits
  have hlt : truncate x m ^^^ truncate y m < 2 ^ m :=
    Nat.xor_lt_two_pow (truncate_lt _ _) (truncate_lt _ _)
  rw [truncate_eq_truncate_iff.mpr hbits]
  exact truncate_natCast_of_lt hlt

theorem occurs_true_iff {x m : Nat} (hx : x < 2 ^ m) : Occurs true m x ↔ x ≠ 0 := by
  constructor
  · rintro ⟨i, -, hbit⟩ rfl
    simp at hbit
  · intro hne
    obtain ⟨i, hbit⟩ := Nat.exists_testBit_of_ne_zero hne
    refine ⟨i, ?_, hbit⟩
    by_contra hi
    have hle : 2 ^ m ≤ 2 ^ i := Nat.pow_le_pow_right (by decide) (Nat.not_lt.mp hi)
    rw [Nat.testBit_lt_two_pow (Nat.lt_of_lt_of_le hx hle)] at hbit
    exact nomatch hbit

theorem occurs_false_invert {x m : Nat} (hx : x < 2 ^ m) :
    Occurs false m (truncate (Int.lnot x) m) ↔ Occurs true m x := by
  have hvalue : truncate (Int.lnot x) m = 2 ^ m - (x + 1) := by
    have hle : x + 1 ≤ 2 ^ m := hx
    have hcast : ((2 ^ m - (x + 1) : Nat) : Int) = 2 ^ m - (x + 1) := by
      push_cast [hle]
      ring
    have hmod : Int.lnot x ≡ ((2 ^ m - (x + 1) : Nat) : Int) [ZMOD 2 ^ m] := by
      rw [lnot_eq, hcast]
      exact Int.modEq_iff_dvd.mpr ⟨1, by ring⟩
    rw [truncate_eq_truncate_iff.mpr hmod]
    exact truncate_natCast_of_lt (by omega)
  have hbit : ∀ i, i < m → ((truncate (Int.lnot x) m).testBit i = false ↔ x.testBit i = true) := by
    intro i hi
    rw [hvalue, Nat.testBit_two_pow_sub_succ hx, decide_eq_true hi, Bool.true_and,
      Bool.not_eq_false']
  exact exists_congr fun i => and_congr_right fun hi => hbit i hi

/-- Promoted operands are equal when no bit tells them apart. -/
theorem promoted_eq_iff (hl : l.WellFormed) (hr : r.WellFormed) {m : Nat}
    (hm : max (getPromotedWidth l.width lhsSigned (lhsSigned || rhsSigned))
      (getPromotedWidth r.width rhsSigned (lhsSigned || rhsSigned)) = m) :
    truncate (Int.xor (l.denote lhsSigned) (r.denote rhsSigned)) m = 0 ↔
      l.denote lhsSigned = r.denote rhsSigned := by
  have hL := @denote_promoted _ hl lhsSigned (lhsSigned || rhsSigned)
    (by simp +contextual) m (by omega)
  have hR := @denote_promoted _ hr rhsSigned (lhsSigned || rhsSigned)
    (by simp +contextual) m (by omega)
  have hm0 : 0 < m := by
    have hpos := hl.width_pos
    have hle : l.width ≤ getPromotedWidth l.width lhsSigned (lhsSigned || rhsSigned) := by
      rw [getPromotedWidth]
      split <;> omega
    omega
  have hhalf : (2 : Int) ^ m = 2 * 2 ^ (m - 1) := by
    rw [← pow_succ', Nat.sub_add_cancel hm0]
  rw [truncate_xor, Nat.xor_eq_zero_iff, truncate_eq_truncate_iff]
  refine ⟨fun hmod => ?_, fun h => by rw [h]⟩
  have hdvd := Int.modEq_iff_dvd.mp hmod
  have hrange : -2 ^ m < r.denote rhsSigned - l.denote lhsSigned ∧
      r.denote rhsSigned - l.denote lhsSigned < 2 ^ m := by
    cases heither : (lhsSigned || rhsSigned) with
    | false =>
        rw [heither] at hL hR
        simp only [Bool.false_eq_true, if_false] at hL hR
        omega
    | true =>
        rw [heither] at hL hR
        simp only [if_true] at hL hR
        omega
  have hzero := Int.eq_zero_of_abs_lt_dvd hdvd (abs_lt.mpr hrange)
  omega

/-- An equality ends in whether the integers are equal. -/
theorem decomposeCompareEQ_runs (luts : Option LutSize) {op : Operation} {type : BinaryOpType}
    {src0 src1 : SourceOperand} {a b : Literal} (hshape : CompareShape table op type src0 src1 dst)
    (htype : type ∈ [BinaryOpType.eq, .ne]) (ha : src0.literalIn table regs = some a)
    (hb : src1.literalIn table regs = some b) :
    ∃ e regs', decomposeCompareEQ luts table op = .ok e ∧
      ComparesTo table regs dst e regs' (truncate (exactBinaryOp type
        (a.denote (op.shouldSignExtend 0)) (b.denote (op.shouldSignExtend 1))) 1) := by
  have hra := hshape.reads (by simp) ha
  have hrb := hshape.reads (by simp) hb
  have hwa := literalIn_wellFormed hshape.binaryOp.src0_shape ha
  have hwb := literalIn_wellFormed hshape.binaryOp.src1_shape hb
  have haw : src0.width table = a.width := (literalIn_width ha).symm
  have hbw : src1.width table = b.width := (literalIn_width hb).symm
  let m := max
    (getPromotedWidth a.width (op.shouldSignExtend 0)
      (op.shouldSignExtend 0 || op.shouldSignExtend 1))
    (getPromotedWidth b.width (op.shouldSignExtend 1)
      (op.shouldSignExtend 0 || op.shouldSignExtend 1))
  have hm0 : 0 < m := by
    have hpos := hwa.width_pos
    have hle : a.width ≤ getPromotedWidth a.width (op.shouldSignExtend 0)
        (op.shouldSignExtend 0 || op.shouldSignExtend 1) := by
      rw [getPromotedWidth]
      split <;> omega
    exact Nat.lt_of_lt_of_le (Nat.lt_of_lt_of_le hpos hle) (Nat.le_max_left _ _)
  let x := truncate (Int.xor (a.denote (op.shouldSignExtend 0)) (b.denote (op.shouldSignExtend 1))) m
  have hx : x < 2 ^ m := truncate_lt _ _
  have heq : x = 0 ↔ a.denote (op.shouldSignExtend 0) = b.denote (op.shouldSignExtend 1) :=
    promoted_eq_iff hwa hwb rfl
  have hstart : Runs ⟨table, []⟩ regs regs := fun _ _ => rfl
  have hsrc : List.Forall₂ (Reads ⟨table, []⟩ regs) op.src [a, b] := by
    rw [hshape.binaryOp.src_eq]
    exact .cons hra (.cons hrb .nil)
  obtain ⟨regs1, hext1, hxor⟩ := @emit_extends _ _ _ hstart
    { op with opcode := .binaryOp .xor } m x _ hsrc rfl
  have hdst1 := Nat.lt_of_lt_of_le hshape.dst_allocated hext1.grows.length_le
  have hdesc1 := desc_of_grow hext1.grows hshape.dst_allocated
  have hunfold : decomposeCompareEQ luts table op = compareByBits luts table op type m dst := by
    rw [decomposeCompareEQ, hshape.binaryOp.opcode_eq, hshape.binaryOp.src_eq,
      hshape.binaryOp.dst_eq]
    dsimp only
    rw [haw, hbw]
  rw [hunfold]
  cases type with
  | ne =>
      obtain ⟨e, regs', result, hrun, hreduced, hiff⟩ := reduceBinaryOp_runs (.inr ⟨rfl, rfl⟩) luts
        hm0 hext1.runs hxor hdst1 (by rw [hdesc1, hshape.dst_width])
      have hreduced := hreduced.of_extends hext1
      refine ⟨e, regs', hrun, hreduced.runs, ?_, hreduced.frame⟩
      rw [hreduced.value, exactBinaryOp, truncate_ite_one]
      congr 1
      rw [Bool.eq_iff_iff, hiff, occurs_true_iff hx, ne_eq, heq, decide_eq_true_iff]
  | eq =>
      obtain ⟨regs2, hext2, hinvert⟩ := @emit_extends _ _ _ hext1.runs
        { opcode := .unaryOp .invert, src := [.register _] } m
        (truncate (Int.lnot x) m) _ (.cons hxor .nil) (by
          show some (truncate (Int.lnot (Literal.denote ⟨x, m⟩ _)) m) = _
          rw [show Nat.testBit 0 0 = false by rfl, denote_false])
      have hdst2 := Nat.lt_of_lt_of_le hdst1 hext2.grows.length_le
      have hdesc2 := desc_of_grow hext2.grows hdst1
      obtain ⟨e, regs', result, hrun, hreduced, hiff⟩ := reduceBinaryOp_runs (.inl ⟨rfl, rfl⟩) luts
        hm0 hext2.runs hinvert hdst2 (by rw [hdesc2, hdesc1, hshape.dst_width])
      have hreduced := hreduced.of_extends (hext1.trans hext2)
      refine ⟨e, regs', hrun, hreduced.runs, ?_, hreduced.frame⟩
      rw [hreduced.value, exactBinaryOp, truncate_ite_one]
      congr 1
      rw [occurs_false_invert hx, occurs_true_iff hx, ne_eq, heq] at hiff
      rw [Bool.eq_iff_iff, decide_eq_true_iff, ← not_iff_not, Bool.not_eq_true, hiff]
  | _ => simp at htype

/-! ## Against the reference arithmetic -/

/-- A decomposed comparison ends in the truth value of the comparison of integers. -/
theorem decomposeCompare_runs (luts : Option LutSize) {op : Operation} {type : BinaryOpType}
    {src0 src1 : SourceOperand} {a b : Literal} (hshape : CompareShape table op type src0 src1 dst)
    (ha : src0.literalIn table regs = some a) (hb : src1.literalIn table regs = some b) :
    ∃ e regs', decomposeCompare luts table op = .ok e ∧
      ComparesTo table regs dst e regs' (truncate (exactBinaryOp type
        (a.denote (op.shouldSignExtend 0)) (b.denote (op.shouldSignExtend 1))) 1) := by
  have hcomparison := hshape.comparison
  rw [decomposeCompare, hshape.binaryOp.opcode_eq]
  cases type with
  | gt | ge | lt | le => exact decomposeCompareCarryChain_runs hshape (by simp) ha hb
  | eq | ne => exact decomposeCompareEQ_runs luts hshape (by simp) ha hb
  | _ => simp [IsComparison] at hcomparison

/-- The operations that replace a comparison produce, for all values of the registers, the bit
    of the comparison of integers; that is the one `ImplementBinaryOp` produces exactly where
    the reference arithmetic is exact. -/
theorem decomposeCompare_implements_iff (luts : Option LutSize) {op : Operation}
    {type : BinaryOpType} {src0 src1 : SourceOperand}
    (hshape : CompareShape table op type src0 src1 dst) :
    ∃ e, decomposeCompare luts table op = .ok e ∧
      ∀ regs a b, src0.literalIn table regs = some a → src1.literalIn table regs = some b →
        ∃ regs', runCombinational e.table regs e.ops = some regs' ∧
          (∀ r, r < table.length → r ≠ dst → regs' r = regs r) ∧
          (implementBinaryOp a b 1 (op.shouldSignExtend 0) (op.shouldSignExtend 1) type
              = .ok (regs' dst) ↔
            BinaryOpInRange a b 1 (op.shouldSignExtend 0) (op.shouldSignExtend 1) type) := by
  obtain ⟨a0, ha0⟩ := literalIn_exists hshape.binaryOp.src0_shape fun _ => 0
  obtain ⟨b0, hb0⟩ := literalIn_exists hshape.binaryOp.src1_shape fun _ => 0
  obtain ⟨e, -, he, -⟩ := decomposeCompare_runs luts hshape ha0 hb0
  refine ⟨e, he, fun regs a b ha hb => ?_⟩
  obtain ⟨e', regs', he', h⟩ := decomposeCompare_runs luts hshape ha hb
  rw [he, Except.ok.injEq] at he'
  subst he'
  refine ⟨regs', h.runs, h.frame, ?_⟩
  have hcomparison := hshape.comparison
  have hdefined : type.Defined (b.denote (op.shouldSignExtend 1)) := by
    cases type with
    | gt | ge | lt | le | eq | ne => exact trivial
    | _ => simp [IsComparison] at hcomparison
  rw [h.result, truncate_eq]
  exact implementBinaryOp_exact_iff (literalIn_wellFormed hshape.binaryOp.src0_shape ha)
    (literalIn_wellFormed hshape.binaryOp.src1_shape hb) _ _ (by decide) type hdefined

end Compare

/-- `a == b` for four bits each, the first signed. -/
def mixedEquality : Operation :=
  { opcode := .binaryOp .eq, signExtendSourceMask := 1
    src := [.register 0, .register 1], dst := [.register 2] }

def twoNibbles : RegisterTable := [localRegister 4, localRegister 4, localRegister 1]

/-- Minus one and fifteen have the same pattern: `ImplementBinaryOp` takes them for equal, and
    the decomposed comparison does not. -/
theorem decomposeCompare_not_implements :
    implementBinaryOp ⟨15, 4⟩ ⟨15, 4⟩ 1 true false .eq = .ok 1 ∧
      (decomposeCompare (some ⟨4, by decide, by decide⟩) twoNibbles mixedEquality).map
          (fun e => (runCombinational e.table (fun _ => 15) e.ops).map fun regs => regs 2)
        = .ok (some 0) := by
  constructor <;> decide +kernel

theorem mixedEquality_shape :
    CompareShape twoNibbles mixedEquality .eq (.register 0) (.register 1) 2 where
  binaryOp := ⟨rfl, rfl, rfl, ⟨by decide, by decide⟩, ⟨by decide, by decide⟩, by decide, by decide⟩
  comparison := by simp [IsComparison]
  src_allocated := by
    intro s hs r hr
    subst hr
    simp only [List.mem_cons, SourceOperand.register.injEq, List.not_mem_nil, or_false] at hs
    rcases hs with rfl | rfl <;> decide
  dst_allocated := by decide
  dst_width := by decide

theorem decomposeCompare_implements_iff_mixedEquality :
    ∃ e, decomposeCompare none twoNibbles mixedEquality = .ok e ∧
      ∀ regs a b, (SourceOperand.register 0).literalIn twoNibbles regs = some a →
        (SourceOperand.register 1).literalIn twoNibbles regs = some b →
        ∃ regs', runCombinational e.table regs e.ops = some regs' ∧
          (∀ r, r < 3 → r ≠ 2 → regs' r = regs r) ∧
          (implementBinaryOp a b 1 true false .eq = .ok (regs' 2) ↔
            BinaryOpInRange a b 1 true false .eq) :=
  decomposeCompare_implements_iff none mixedEquality_shape

end Kanagawa.Optimize
