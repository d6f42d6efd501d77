/-
  Kanagawa.Optimize.DecomposeShift

  Shifts by a register as a chain of constant shifts (`optimize.cpp`, `DecomposeShift`).

  For every bit of the shift amount the current value is shifted by the power of two
  and a multiplexer chooses between the two.  A left shift makes the register wider by
  as much, so that no bit is lost; a right shift keeps its width.  After `k` stages the
  current register, read with the sign of the operand, is the operand shifted by the
  low `k` bits of the amount.
-/
import Kanagawa.Arith.Typed
import Kanagawa.IR.Emission
import Kanagawa.Optimize.AlgebraicIdentitiesSound
import Kanagawa.Optimize.CommonSubexpression

namespace Kanagawa.Optimize

open IR IR.Emission Lib.Bits Lib.TwosComplement

/-! ## The pass -/

/-- The width after a shift by a constant. -/
def shiftedWidth (currentWidth staticShiftAmount : Nat) : BinaryOpType → Except Failure Nat
  | .shl => .ok (currentWidth + staticShiftAmount)
  | .shr => .ok currentWidth
  | _ => .error .assertion

/-- The body of the loop of `DecomposeShift`: extracts a bit of the shift amount, shifts the
    current value, and selects between the current value and the shifted one. -/
def decomposeShiftBit (type : BinaryOpType) (isSigned : Bool) (shiftAmountOperand : SourceOperand)
    (current : Nat × Emission) (shiftAmountBitIndex : Nat) : Except Failure (Nat × Emission) := do
  let currentWidth := (current.2.table.desc current.1).width
  let shiftAmountBit := current.2.binaryOp .shr 1 shiftAmountOperand false
    (sizeLiteral shiftAmountBitIndex) false
  let staticShiftAmount := 2 ^ shiftAmountBitIndex
  let newWidth ← shiftedWidth currentWidth staticShiftAmount type
  let shifted := shiftAmountBit.2.binaryOp type newWidth (.register current.1) isSigned
    (sizeLiteral staticShiftAmount) false
  return shifted.2.mux21 newWidth (.register shiftAmountBit.1) (.register current.1) isSigned
    (.register shifted.1) isSigned

/-- The operations that replace a shift. -/
def shiftChain (table : RegisterTable) (type : BinaryOpType) (isSigned : Bool)
    (operandToShift : SourceOperand) (shiftAmountRegister : Nat) (dst : DestinationOperand) :
    Except Failure Emission := do
  let first := (⟨table, []⟩ : Emission).mov (operandToShift.width table) operandToShift isSigned
  let last ← (List.range (table.desc shiftAmountRegister).width).foldlM
    (decomposeShiftBit type isSigned (.register shiftAmountRegister)) first
  return last.2.push { movOperation (.register last.1) isSigned with dst := [dst] }

/-- `DecomposeShift`: `none` when the operation stays. -/
def decomposeShift (table : RegisterTable) (op : Operation) : Except Failure (Option Emission) :=
  match op.opcode, op.src, op.dst with
  | .binaryOp type, [operandToShift, shiftAmountOperand], [dst] =>
      -- Only operations that operate on locals
      if !operationUsesOnlyLocalReg table op then .ok none
      else
        match shiftAmountOperand with
        | .register shiftAmountRegister =>
            -- would exceed size_t
            if (table.desc shiftAmountRegister).width ≥ 64 then .ok none
            else some <$> shiftChain table type (op.shouldSignExtend 0) operandToShift
              shiftAmountRegister dst
        | _ => .ok none
  | _, _, _ => .error .assertion

/-! ## One stage -/

/-- A shift operator. -/
def IsShift (type : BinaryOpType) : Prop := type = .shl ∨ type = .shr

theorem IsShift.defined {type : BinaryOpType} (h : IsShift type) (n : Nat) :
    type.Defined (n : Int) := by
  rcases h with rfl | rfl <;> exact Int.natCast_nonneg n

/-- Shifting twice is shifting by the sum. -/
theorem IsShift.shift_add {type : BinaryOpType} (h : IsShift type) (z : Int) (m n : Nat) :
    exactBinaryOp type (exactBinaryOp type z m) n = exactBinaryOp type z (m + n : Nat) := by
  rcases h with rfl | rfl
  · simp only [exactBinaryOp, Int.toNat_natCast]
    rw [pow_add, mul_assoc]
  · simp only [exactBinaryOp, Int.toNat_natCast]
    rw [pow_add, Int.ediv_ediv_of_nonneg (two_pow_pos m).le]

theorem IsShift.shift_zero {type : BinaryOpType} (h : IsShift type) (z : Int) :
    exactBinaryOp type z (0 : Nat) = z := by
  rcases h with rfl | rfl <;> simp [exactBinaryOp]

/-- A shifted integer fits the new width, which is not less than the old one. -/
theorem IsShift.inType_shift {type : BinaryOpType} (h : IsShift type) {signed : Bool} {w n : Nat}
    {z : Int} (hw : 0 < w) (hz : InType signed w z) :
    ∃ w', shiftedWidth w n type = .ok w' ∧ w ≤ w' ∧ InType signed w' (exactBinaryOp type z n) := by
  rcases h with rfl | rfl
  · refine ⟨w + n, rfl, Nat.le_add_right w n, ?_⟩
    rw [exactBinaryOp, Int.toNat_natCast]
    exact hz.mul_two_pow hw
  · refine ⟨w, rfl, Nat.le_refl w, ?_⟩
    rw [exactBinaryOp, Int.toNat_natCast]
    exact (hz.mono (Nat.le_add_left w n)).ediv_two_pow hw

section Stage

variable {type : BinaryOpType} {isSigned : Bool} {start regs : Nat → Nat}

/-- The current register, read with the sign of the operand, holds an integer. -/
structure HoldsShifted (isSigned : Bool) (current : Nat × Emission) (start regs : Nat → Nat)
    (z : Int) : Prop where
  runs : Runs current.2 start regs
  width_pos : 0 < (current.2.table.desc current.1).width
  inType : InType isSigned (current.2.table.desc current.1).width z
  reads : Reads current.2 regs (.register current.1)
    ⟨truncate z (current.2.table.desc current.1).width,
      (current.2.table.desc current.1).width⟩

theorem HoldsShifted.of_reads {current : Nat × Emission} {z : Int} {w : Nat}
    (hruns : Runs current.2 start regs) (hw : 0 < w) (hz : InType isSigned w z)
    (hreads : Reads current.2 regs (.register current.1) ⟨truncate z w, w⟩) :
    HoldsShifted isSigned current start regs z := by
  have hwidth : (current.2.table.desc current.1).width = w := (Reads.register_iff.mp hreads).2.1
  refine ⟨hruns, ?_, ?_, ?_⟩
  · rw [hwidth]
    exact hw
  · rw [hwidth]
    exact hz
  · rw [hwidth]
    exact hreads

/-- A stage shifts by its power of two if the bit of the amount is set. -/
theorem decomposeShiftBit_extends (htype : IsShift type) {current : Nat × Emission} {z : Int}
    {shiftAmountOperand : SourceOperand} {amount : Literal}
    (h : HoldsShifted isSigned current start regs z)
    (hamount : Reads current.2 regs shiftAmountOperand amount) (k : Nat) :
    ∃ next regs', decomposeShiftBit type isSigned shiftAmountOperand current k = .ok next ∧
      Extends current.2 next.2 start regs regs' ∧
      HoldsShifted isSigned next start regs'
        (exactBinaryOp type z (2 ^ k * (amount.value.testBit k).toNat : Nat)) := by
  obtain ⟨w', hwidth, hle, hinType⟩ := htype.inType_shift (n := 2 ^ k) h.width_pos h.inType
  obtain ⟨regs1, hextends1, hbit⟩ := @shr_extends _ _ _ h.runs _ _ false hamount k 1
  have hdef : type.Defined (Literal.denote ⟨2 ^ k, 64⟩ false) := by
    rw [denote_false]
    exact htype.defined (2 ^ k)
  obtain ⟨regs2, hextends2, hshifted⟩ := binaryOp_extends hextends1.runs w'
    (hextends1.keeps h.reads) (Reads.literal _ regs1 ⟨2 ^ k, 64⟩) (s := isSigned) (t := false) hdef
  rw [denote_truncate_of_inType h.width_pos h.inType, denote_false] at hshifted
  -- The extracted bit
  have hvalue : wordAt (amount.denote false) k 1 = (amount.value.testBit k).toNat := by
    have hcast : (amount.value : Int) / 2 ^ k = (amount.value / 2 ^ k : Nat) := by
      push_cast
      rfl
    rw [denote_false, wordAt, hcast, truncate_natCast, Nat.toNat_testBit, Nat.pow_one]
  rw [hvalue] at hbit
  obtain ⟨regs3, hextends3, hselected⟩ := mux21_signed_extends hextends2.runs
    (hextends2.keeps hbit) (Bool.toNat_lt _) ((hextends1.trans hextends2).keeps h.reads) hshifted
    isSigned isSigned w'
  have hpos : 0 < w' := Nat.lt_of_lt_of_le h.width_pos hle
  rw [denote_truncate_of_inType h.width_pos h.inType, denote_truncate_of_inType hpos hinType]
    at hselected
  refine ⟨_, regs3, ?_, (hextends1.trans hextends2).trans hextends3,
    HoldsShifted.of_reads hextends3.runs hpos ?_ ?_⟩
  · rw [decomposeShiftBit, hwidth]
    rfl
  · cases amount.value.testBit k with
    | true =>
        rw [Bool.toNat_true, Nat.mul_one]
        exact hinType
    | false =>
        rw [Bool.toNat_false, Nat.mul_zero, htype.shift_zero]
        exact h.inType.mono hle
  · cases hset : amount.value.testBit k with
    | true =>
        rw [hset, Bool.toNat_true, if_neg Nat.one_ne_zero] at hselected
        rw [Bool.toNat_true, Nat.mul_one]
        exact hselected
    | false =>
        rw [hset, Bool.toNat_false, if_pos rfl] at hselected
        rw [Bool.toNat_false, Nat.mul_zero, htype.shift_zero]
        exact hselected

/-- After `k` stages the value is shifted by the low `k` bits of the amount. -/
theorem decomposeShiftBits_extends (htype : IsShift type) {first : Nat × Emission} {z : Int}
    {shiftAmountOperand : SourceOperand} {amount : Literal}
    (h : HoldsShifted isSigned first start regs z)
    (hamount : Reads first.2 regs shiftAmountOperand amount) (k : Nat) :
    ∃ last regs', (List.range k).foldlM (decomposeShiftBit type isSigned shiftAmountOperand) first
        = .ok last ∧
      Extends first.2 last.2 start regs regs' ∧
      HoldsShifted isSigned last start regs' (exactBinaryOp type z (amount.value % 2 ^ k : Nat)) := by
  induction k with
  | zero =>
      refine ⟨first, regs, rfl, Extends.refl h.runs, ?_⟩
      rw [Nat.pow_zero, Nat.mod_one, htype.shift_zero]
      exact h
  | succ k ih =>
      obtain ⟨current, regs1, hfold, hextends1, hcurrent⟩ := ih
      obtain ⟨next, regs2, hstage, hextends2, hnext⟩ :=
        decomposeShiftBit_extends htype hcurrent (hextends1.keeps hamount) k
      refine ⟨next, regs2, ?_, hextends1.trans hextends2, ?_⟩
      · rw [List.range_succ, List.foldlM_append, hfold]
        show (List.foldlM _ current [k] : Except Failure _) = _
        rw [List.foldlM_cons, hstage]
        rfl
      · rw [Nat.mod_pow_succ, ← Nat.toNat_testBit, ← htype.shift_add]
        exact hnext

end Stage

/-! ## The chain -/

section Chain

variable {table : RegisterTable} {type : BinaryOpType}

/-- Where `ImplementBinaryOp` returns a value for a shift, it is the exact one. -/
theorem shift_exact_of_ok (htype : IsShift type) {a b : Literal} {s0 s1 : Bool} {d v : Nat}
    (h0 : a.WellFormed) (h1 : b.WellFormed) (hd : 0 < d) (hsum : d + b.value < 2 ^ 64)
    (h : implementBinaryOp a b d s0 s1 type = .ok v) :
    v = truncate (exactBinaryOp type (a.denote s0) (b.value : Nat)) d := by
  have hvalue : b.value ≤ sizeMax := by
    rw [sizeMax]
    omega
  have hreq : requiredSourceWidth a b d type = .ok (sourceWidth a b d type) := by
    rcases htype with rfl | rfl
    · rfl
    · rw [requiredSourceWidth, mpToSizeT, if_neg (Nat.not_lt.mpr hvalue)]
      show Except.ok ((d + b.value) % 2 ^ 64) = _
      rw [Nat.mod_eq_of_lt hsum]
      rfl
  obtain ⟨hneg, -⟩ := not_negative_of_shift_ok htype h0 h1 hd hreq h
  obtain ⟨hw0, hw1⟩ := widenable_of_ok h0 h1 hd hreq h
  have hdenote : b.denote s1 = b.value := Literal.denote_of_not_negative hneg
  have hdef : type.Defined (b.denote s1) := by
    rw [hdenote]
    exact htype.defined _
  have hrange : BinaryOpInRange a b d s0 s1 type := by
    refine ⟨hw0, hw1, ?_⟩
    rcases htype with rfl | rfl <;> exact hvalue
  have hexact := (implementBinaryOp_exact_iff h0 h1 s0 s1 hd type hdef).mpr hrange
  rw [h, Except.ok.injEq, hdenote] at hexact
  rw [hexact, truncate_eq]

/-- A shift by a register, of registers that are in the table. -/
structure ShiftShape (table : RegisterTable) (op : Operation) (type : BinaryOpType)
    (operandToShift : SourceOperand) (shiftAmountRegister dst : Nat) : Prop where
  binaryOp : BinaryOpShape table op type operandToShift (.register shiftAmountRegister)
    (.register dst)
  isShift : IsShift type
  src_allocated : ∀ r, operandToShift = .register r → r < table.length
  amount_allocated : shiftAmountRegister < table.length
  dst_allocated : dst < table.length

/-- `DecomposeShift` replaces every shift of local registers by a local register of less than 64
    bits, and the operations leave in the destination the value that `ImplementBinaryOp` defines
    for the shift.  No other register of the program changes. -/
theorem decomposeShift_implements {op : Operation} {operandToShift : SourceOperand}
    {shiftAmountRegister dst : Nat}
    (hshape : ShiftShape table op type operandToShift shiftAmountRegister dst)
    (hlocal : operationUsesOnlyLocalReg table op = true)
    (hamount : (table.desc shiftAmountRegister).width < 64)
    (hdst : (table.desc dst).width ≤ 2 ^ 63) :
    ∃ e, decomposeShift table op = .ok (some e) ∧
      ∀ regs, ∃ regs', runCombinational e.table regs e.ops = some regs' ∧
        (∀ v, implementedIn table regs op = .ok v → regs' dst = v) ∧
        ∀ r, r < table.length → r ≠ dst → regs' r = regs r := by
  have hop := hshape.binaryOp
  -- The chain runs on every state; the operations do not depend on it
  have hchain : ∀ regs, ∃ e regs', shiftChain table type (op.shouldSignExtend 0) operandToShift
        shiftAmountRegister (.register dst) = .ok e ∧
      runCombinational e.table regs e.ops = some regs' ∧
      (∀ v, implementedIn table regs op = .ok v → regs' dst = v) ∧
      ∀ r, r < table.length → r ≠ dst → regs' r = regs r := by
    intro regs
    obtain ⟨a, ha⟩ := literalIn_exists hop.src0_shape regs
    have haWf := literalIn_wellFormed hop.src0_shape ha
    obtain ⟨b, hb⟩ : ∃ b : Literal, b = ⟨regs shiftAmountRegister %
      2 ^ (table.desc shiftAmountRegister).width, (table.desc shiftAmountRegister).width⟩ :=
      ⟨_, rfl⟩
    have hbLiteral : (SourceOperand.register shiftAmountRegister).literalIn table regs = some b := by
      rw [hb]
      rfl
    have hbWf := literalIn_wellFormed hop.src1_shape hbLiteral
    have hreadsA : Reads ⟨table, []⟩ regs operandToShift a := ⟨hshape.src_allocated, ha⟩
    have hreadsB : Reads ⟨table, []⟩ regs (.register shiftAmountRegister) b := by
      refine ⟨?_, hbLiteral⟩
      intro r hr
      cases hr
      exact hshape.amount_allocated
    -- The first move, the stages, the last move
    obtain ⟨regs1, hextends1, hfirst⟩ := mov_extends (e := ⟨table, []⟩) (fun _ _ => rfl) hreadsA
      (operandToShift.width table) (op.shouldSignExtend 0)
    have hwidth : operandToShift.width table = a.width := (literalIn_width ha).symm
    have hrange : InType (op.shouldSignExtend 0) (operandToShift.width table)
        (a.denote (op.shouldSignExtend 0)) := by
      rw [hwidth]
      exact inType_denote haWf.fits haWf.width_pos
    have hheld := HoldsShifted.of_reads hextends1.runs (hwidth ▸ haWf.width_pos) hrange hfirst
    obtain ⟨last, regs2, hfold, hextends2, hlast⟩ := decomposeShiftBits_extends hshape.isShift hheld
      (hextends1.keeps hreadsB) (table.desc shiftAmountRegister).width
    have hextends := hextends1.trans hextends2
    obtain ⟨hwrites, -⟩ := mov_writes hlast.runs
      (Nat.lt_of_lt_of_le hshape.dst_allocated hextends.grows.length_le) hlast.reads
      (op.shouldSignExtend 0)
    rw [denote_truncate_of_inType hlast.width_pos hlast.inType,
      desc_of_grow hextends.grows hshape.dst_allocated] at hwrites
    have hall := (hextends.writes (· = dst)).trans hwrites
    refine ⟨_, _, ?_, hwrites.runs _ List.prefix_rfl, ?_, hall.frame⟩
    · rw [shiftChain]
      show (List.foldlM _ _ _ >>= fun last => _) = _
      rw [hfold]
      rfl
    · intro v hv
      rw [implementedIn, hop.opcode_eq, hop.src_eq, hop.dst_eq, List.mapM_cons, ha, List.mapM_cons,
        hbLiteral] at hv
      have hsmall : b.value < 2 ^ 63 := by
        apply Nat.lt_of_lt_of_le hbWf.fits
        rw [hb]
        exact Nat.pow_le_pow_right (by decide) (Nat.le_of_lt_succ hamount)
      have hsum : (table.desc dst).width + b.value < 2 ^ 64 := by omega
      have hexact := shift_exact_of_ok hshape.isShift haWf hbWf hop.dst_pos hsum hv
      have hmod : b.value % 2 ^ (table.desc shiftAmountRegister).width = b.value := by
        rw [hb]
        exact Nat.mod_mod _ _
      rw [Function.update_self, hmod, hexact]
      rfl
  obtain ⟨e, -, he, -⟩ := hchain fun _ => 0
  refine ⟨e, ?_, ?_⟩
  · rw [decomposeShift, hop.opcode_eq, hop.src_eq, hop.dst_eq]
    simp only [hlocal, Bool.not_true, Bool.false_eq_true, if_false, Nat.not_le.mpr hamount, he]
    rfl
  · intro regs
    obtain ⟨e', regs', he', hrest⟩ := hchain regs
    rw [he, Except.ok.injEq] at he'
    subst he'
    exact ⟨regs', hrest⟩

end Chain

/-- A signed nibble shifted left by two bits of another register, into a byte. -/
def nibbleShift : Operation :=
  { opcode := .binaryOp .shl, signExtendSourceMask := 1
    src := [.register 0, .register 1], dst := [.register 2] }

def nibbleShiftTable : RegisterTable := [localRegister 4, localRegister 2, localRegister 8]

theorem nibbleShift_shape : ShiftShape nibbleShiftTable nibbleShift .shl (.register 0) 1 2 where
  binaryOp := ⟨rfl, rfl, rfl, ⟨by decide, by decide⟩, ⟨by decide, by decide⟩, by decide, by decide⟩
  isShift := .inl rfl
  src_allocated := by
    intro r hr
    cases hr
    decide
  amount_allocated := by decide
  dst_allocated := by decide

/-- Minus three shifted left by two is minus twelve. -/
theorem decomposeShift_implements_nibble :
    ∃ e regs', decomposeShift nibbleShiftTable nibbleShift = .ok (some e) ∧
      runCombinational e.table (fun r => if r = 0 then 13 else 2) e.ops = some regs' ∧
      regs' 2 = 244 := by
  obtain ⟨e, he, hruns⟩ :=
    decomposeShift_implements nibbleShift_shape (by decide) (by decide) (by decide)
  obtain ⟨regs', hrun, hvalue, -⟩ := hruns fun r => if r = 0 then 13 else 2
  exact ⟨e, regs', he, hrun, hvalue 244 (by decide +kernel)⟩

end Kanagawa.Optimize
