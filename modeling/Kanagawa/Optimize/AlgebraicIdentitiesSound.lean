/-
  Kanagawa.Optimize.AlgebraicIdentitiesSound

  What `BinaryOpAlgebraicIdentities` keeps of the value of an operation.

  Each operation that a rule builds stands for a function of the two integers
  its sources stand for (`Meaning`), and each rule is compared with the exact
  operator on those integers (`Sound`).  The rules agree with it modulo two to
  the destination width on every operation but those `Mistaken` describes, and
  on each of these some values of the registers tell them apart.
-/
import Kanagawa.Lib.TwosComplement
import Kanagawa.Optimize.AlgebraicIdentities

namespace Kanagawa.Optimize

open IR Lib.Bits Lib.Except

/-! ## The reference arithmetic, where it has a value

The operators with a rule are exact whenever `ImplementBinaryOp` returns: a shift
right only goes wrong on a negative source. -/

section Reference

variable {a b : Literal} {s0 s1 : Bool} {d v : Nat}

theorem widenable_of_ok {type : BinaryOpType} {req : Nat} (h0 : a.WellFormed) (h1 : b.WellFormed)
    (hd : 0 < d) (hreq : requiredSourceWidth a b d type = .ok req)
    (h : implementBinaryOp a b d s0 s1 type = .ok v) :
    a.Widenable s0 req ∧ b.Widenable s1 req := by
  by_contra hw
  rw [implementBinaryOp_of_not_widenable h0 h1 hd hreq hw] at h
  exact nomatch h

theorem not_negative_of_shift_ok {type : BinaryOpType} (hshift : type = .shl ∨ type = .shr)
    {req : Nat} (h0 : a.WellFormed) (h1 : b.WellFormed) (hd : 0 < d)
    (hreq : requiredSourceWidth a b d type = .ok req)
    (h : implementBinaryOp a b d s0 s1 type = .ok v) :
    b.negative s1 = false ∧ b.value ≤ sizeMax := by
  obtain ⟨hw0, hw1⟩ := widenable_of_ok h0 h1 hd hreq h
  rw [implementBinaryOp_of_widenable h0 h1 hd hreq hw0 hw1] at h
  cases hneg : b.negative s1 with
  | true => rcases hshift with rfl | rfl <;> simp [binaryOpResult, hneg, assert, bind,
      Except.bind, Functor.map, Except.map] at h
  | false =>
      refine ⟨rfl, ?_⟩
      by_contra hbig
      rw [Nat.not_le] at hbig
      rcases hshift with rfl | rfl <;>
        simp [binaryOpResult, hneg, assert, bind, Except.bind, Functor.map, Except.map, mpToSizeT,
          Literal.widened_of_not_negative hneg, hbig] at h

/-- The operators that have a rule. -/
def HasRule (type : BinaryOpType) : Prop :=
  type ∈ [BinaryOpType.add, .sub, .lutMul, .and, .or, .xor, .shl, .shr]

theorem inRange_of_ok {type : BinaryOpType} (hrule : HasRule type) (h0 : a.WellFormed)
    (h1 : b.WellFormed) (hd : 0 < d) (hdle : d ≤ sizeMax)
    (hshr : type = .shr → a.negative s0 = false ∨ b.value = 0)
    (h : implementBinaryOp a b d s0 s1 type = .ok v) :
    type.Defined (b.denote s1) ∧ BinaryOpInRange a b d s0 s1 type := by
  cases type with
  | shl =>
      obtain ⟨hneg, hvalue⟩ := not_negative_of_shift_ok (.inl rfl) h0 h1 hd rfl h
      obtain ⟨hw0, hw1⟩ := widenable_of_ok h0 h1 hd rfl h
      refine ⟨?_, hw0, hw1, hvalue⟩
      show 0 ≤ b.denote s1
      rw [Literal.denote_of_not_negative hneg]
      exact Int.natCast_nonneg _
  | shr =>
      by_cases hbig : b.value > sizeMax
      · simp [implementBinaryOp, assert, h0.width_pos, h1.width_pos, hd, requiredSourceWidth,
          mpToSizeT, hbig, bind, Except.bind] at h
      · have hreq : requiredSourceWidth a b d .shr = .ok ((d + b.value) % 2 ^ 64) := by
          simp [requiredSourceWidth, mpToSizeT, hbig, bind, Except.bind, pure, Except.pure]
        obtain ⟨hneg, hvalue⟩ := not_negative_of_shift_ok (.inr rfl) h0 h1 hd hreq h
        obtain ⟨hw0, hw1⟩ := widenable_of_ok h0 h1 hd hreq h
        refine ⟨?_, ⟨hw0.1, fun hneg0 => ?_⟩, ⟨hw1.1, fun hneg1 => ?_⟩, hvalue⟩
        · show 0 ≤ b.denote s1
          rw [Literal.denote_of_not_negative hneg]
          exact Int.natCast_nonneg _
        · have hzero : b.value = 0 := (hshr rfl).resolve_left (by simp [hneg0])
          have hw := hw0.2 hneg0
          show d + b.value ≤ 2 ^ 32
          rw [hzero, Nat.mod_eq_of_lt (by simp only [sizeMax] at hdle; omega)] at hw
          omega
        · exact absurd hneg1 (by simp [hneg])
  | add => exact ⟨trivial, (widenable_of_ok h0 h1 hd rfl h).1, (widenable_of_ok h0 h1 hd rfl h).2,
      trivial⟩
  | sub => exact ⟨trivial, (widenable_of_ok h0 h1 hd rfl h).1, (widenable_of_ok h0 h1 hd rfl h).2,
      trivial⟩
  | lutMul => exact ⟨trivial, (widenable_of_ok h0 h1 hd rfl h).1,
      (widenable_of_ok h0 h1 hd rfl h).2, trivial⟩
  | and => exact ⟨trivial, (widenable_of_ok h0 h1 hd rfl h).1, (widenable_of_ok h0 h1 hd rfl h).2,
      trivial⟩
  | or => exact ⟨trivial, (widenable_of_ok h0 h1 hd rfl h).1, (widenable_of_ok h0 h1 hd rfl h).2,
      trivial⟩
  | xor => exact ⟨trivial, (widenable_of_ok h0 h1 hd rfl h).1, (widenable_of_ok h0 h1 hd rfl h).2,
      trivial⟩
  | _ => simp [HasRule] at hrule

/-- Where `ImplementBinaryOp` returns a value it is the exact one. -/
theorem implementBinaryOp_exact_of_ok {type : BinaryOpType} (hrule : HasRule type)
    (h0 : a.WellFormed) (h1 : b.WellFormed) (hd : 0 < d) (hdle : d ≤ sizeMax)
    (hshr : type = .shr → a.negative s0 = false ∨ b.value = 0)
    (h : implementBinaryOp a b d s0 s1 type = .ok v) :
    type.Defined (b.denote s1) ∧
      v = truncate (exactBinaryOp type (a.denote s0) (b.denote s1)) d := by
  obtain ⟨hdef, hrange⟩ := inRange_of_ok hrule h0 h1 hd hdle hshr h
  have hexact := (implementBinaryOp_exact_iff h0 h1 s0 s1 hd type hdef).mpr hrange
  rw [h, Except.ok.injEq] at hexact
  exact ⟨hdef, by rw [hexact, truncate_eq]⟩

end Reference

/-! ## What is known of the sources -/

theorem knownSource_spec {table : RegisterTable} {s : SourceOperand} {known : KnownSource}
    (hs : SourceShape table s) (h : knownSource s = .ok known) :
    Indexable s ∧ (known.isZero = true ↔ IsZero s) ∧ (known.isOne = true ↔ IsOne s) ∧
      (known.isAllOnes = true ↔ IsAllOnes s) := by
  cases s with
  | literal l =>
      have hl : l.WellFormed := hs
      have hpow : 0 < 2 ^ l.width := Nat.two_pow_pos _
      rw [knownSource] at h
      split at h
      next hzero =>
        cases h
        have htwo : 2 ^ 1 ≤ 2 ^ l.width := Nat.pow_le_pow_right (by decide) hl.width_pos
        simp only [Indexable, IsZero, IsOne, IsAllOnes, hzero]
        refine ⟨.inl trivial, by simp, by simp, by simp; omega⟩
      next hzero =>
        by_cases hidx : l.width ≤ uint32Max
        · have hset : bitSet 0 l.width = .ok (2 ^ l.width) := by
            rw [bitSet, if_pos hidx, Nat.zero_or]
          rw [hset] at h
          cases h
          simp only [Indexable, IsZero, IsOne, IsAllOnes, hidx, decide_eq_true_eq]
          refine ⟨.inr trivial, by simp [hzero], by simp, by omega⟩
        · have hset : bitSet 0 l.width = .error .assertion := by rw [bitSet, if_neg hidx]
          rw [hset] at h
          cases h
  | register r =>
      cases h
      exact ⟨trivial, by simp [IsZero], by simp [IsOne], by simp [IsAllOnes]⟩
  | fifo _ => exact hs.elim
  | stringLiteral _ => exact hs.elim

theorem knownSource_of_indexable {s : SourceOperand} (h : Indexable s) :
    ∃ known, knownSource s = .ok known := by
  cases s with
  | literal l =>
      rw [knownSource]
      split
      · exact ⟨_, rfl⟩
      next hzero =>
        have hidx : l.width ≤ uint32Max := h.resolve_left hzero
        rw [bitSet, if_pos hidx]
        exact ⟨_, rfl⟩
  | register _ => exact ⟨_, rfl⟩
  | fifo _ => exact ⟨_, rfl⟩
  | stringLiteral _ => exact ⟨_, rfl⟩

/-! ### The integers constant operands stand for -/

section Constants

variable {table : RegisterTable} {regs : Nat → Nat} {s : SourceOperand} {l : Literal}

theorem value_of_isZero (hs : IsZero s) (h : s.literalIn table regs = some l) : l.value = 0 := by
  cases s with
  | literal _ => cases h; exact hs
  | _ => exact hs.elim

theorem value_of_isOne (hs : IsOne s) (h : s.literalIn table regs = some l) : l.value = 1 := by
  cases s with
  | literal _ => cases h; exact hs
  | _ => exact hs.elim

theorem value_of_isAllOnes (hs : IsAllOnes s) (h : s.literalIn table regs = some l) :
    l.value + 1 = 2 ^ l.width := by
  cases s with
  | literal _ => cases h; exact hs
  | _ => exact hs.elim

theorem denote_of_value_zero (h : l.value = 0) (signed : Bool) : l.denote signed = 0 := by
  have hneg : l.negative signed = false := by simp [Literal.negative, h]
  rw [Literal.denote_of_not_negative hneg, h]
  rfl

theorem denote_of_value_one (hl : l.WellFormed) (h : l.value = 1) (signed : Bool) :
    l.denote signed = if signed = true ∧ l.width = 1 then -1 else 1 := by
  cases signed with
  | false => simp [Literal.denote_of_not_negative l.negative_false, h]
  | true =>
      by_cases hw : l.width = 1
      · have hneg : l.negative true = true := by simp [Literal.negative, h, hw]
        rw [Literal.denote_of_negative hneg, h, hw, if_pos ⟨rfl, rfl⟩]
        rfl
      · have hpos := hl.width_pos
        have hbit : Nat.testBit 1 (l.width - 1) = false :=
          Nat.testBit_lt_two_pow (Nat.one_lt_two_pow (by omega))
        have hneg : l.negative true = false := by simp [Literal.negative, h, hbit]
        rw [Literal.denote_of_not_negative hneg, h, if_neg (by simp [hw])]
        rfl

theorem denote_of_allOnes_signed (hl : l.WellFormed) (h : l.value + 1 = 2 ^ l.width) :
    l.denote true = -1 := by
  have hvalue : l.value = 2 ^ l.width - 1 := by omega
  have hbit : l.value.testBit (l.width - 1) = true := by
    rw [hvalue, Nat.testBit_two_pow_sub_one]
    have hpos := hl.width_pos
    simp only [decide_eq_true_eq]
    omega
  have hneg : l.negative true = true := by simp [Literal.negative, hbit]
  have hcast : (l.value : Int) + 1 = 2 ^ l.width := by exact_mod_cast h
  rw [Literal.denote_of_negative hneg]
  omega

end Constants

/-! ### Bitwise operators with ones -/

/-- Ones that reach the destination's width act as minus one there. -/
theorem ones_modEq {w d : Nat} (h : d ≤ w) : (2 : Int) ^ w - 1 ≡ -1 [ZMOD 2 ^ d] := by
  have hdvd : (2 : Int) ^ d ∣ 2 ^ w := pow_dvd_pow 2 h
  refine Int.modEq_iff_dvd.mpr ?_
  rw [show (-1 : Int) - (2 ^ w - 1) = -2 ^ w by ring]
  exact (Int.dvd_neg).mpr hdvd

theorem xor_ones_lt {m w : Nat} (h : m < 2 ^ w) :
    0 ≤ Int.xor m (2 ^ w - 1) ∧ Int.xor m (2 ^ w - 1) < 2 ^ w := by
  rw [← natCast_two_pow_sub_one]
  have hlt : m ^^^ (2 ^ w - 1) < 2 ^ w := Nat.xor_lt_two_pow h (by have := Nat.two_pow_pos w; omega)
  have hcast : Int.xor (m : Int) ((2 ^ w - 1 : Nat) : Int) = ((m ^^^ (2 ^ w - 1) : Nat) : Int) := rfl
  rw [hcast]
  exact ⟨Int.natCast_nonneg _, by exact_mod_cast hlt⟩

/-! ## The rules -/

/-- The operations the rules build, with the integer each leaves (modulo the destination)
    when the sources stand for `a` and `b`. -/
inductive Meaning (op : Operation) (src0 src1 : SourceOperand) :
    Operation → (Int → Int → Int) → Prop
  | left : Meaning op src0 src1 (unaryOf op .mov src0 0) fun a _ => a
  | right : Meaning op src0 src1 (unaryOf op .mov src1 1) fun _ b => b
  | zero : Meaning op src0 src1 (movZero op) fun _ _ => 0
  | invertLeft : Meaning op src0 src1 (unaryOf op (.unaryOp .invert) src0 0) fun a _ => Int.lnot a
  | invertRight : Meaning op src0 src1 (unaryOf op (.unaryOp .invert) src1 1) fun _ b => Int.lnot b

section Rules

variable {table : RegisterTable} {op : Operation} {type : BinaryOpType}
  {src0 src1 : SourceOperand} {dst : DestinationOperand} {regs : Nat → Nat} {a b : Literal}

theorem pushOperand_flag (opcode : Opcode) (dsts : List DestinationOperand) (tag : Nat)
    (s : SourceOperand) (signed : Bool) :
    (Operation.pushOperand { opcode := opcode, dst := dsts, tag := tag } s
      signed).signExtendSourceMask.testBit 0 = signed := by
  cases signed <;> simp [Operation.pushOperand]

theorem resultIn_unaryOf (hdst : op.dst = [dst]) {s : SourceOperand} {l : Literal} (opcode : Opcode)
    (i : Nat) (h : s.literalIn table regs = some l) :
    resultIn table regs (unaryOf op opcode s i)
      = combinationalResult opcode (unaryOf op opcode s i).signExtendSourceMask (dst.width table)
          [l] := by
  have hdst' : (unaryOf op opcode s i).dst = [dst] := hdst
  have hsrc : (unaryOf op opcode s i).src = [s] := rfl
  have hopcode : (unaryOf op opcode s i).opcode = opcode := rfl
  simp [resultIn, hdst', hsrc, hopcode, h]

theorem Meaning.resultIn_eq (hdst : op.dst = [dst]) (ha : src0.literalIn table regs = some a)
    (hb : src1.literalIn table regs = some b) {op' : Operation} {f : Int → Int → Int}
    (h : Meaning op src0 src1 op' f) :
    resultIn table regs op' = some (truncate
      (f (a.denote (op.shouldSignExtend 0)) (b.denote (op.shouldSignExtend 1)))
      (dst.width table)) := by
  cases h with
  | left =>
      rw [resultIn_unaryOf hdst .mov 0 ha, combinationalResult, unaryOf, pushOperand_flag]
  | right =>
      rw [resultIn_unaryOf hdst .mov 1 hb, combinationalResult, unaryOf, pushOperand_flag]
  | invertLeft =>
      rw [resultIn_unaryOf hdst _ 0 ha, combinationalResult, unaryOf, pushOperand_flag]
      rfl
  | invertRight =>
      rw [resultIn_unaryOf hdst _ 1 hb, combinationalResult, unaryOf, pushOperand_flag]
      rfl
  | zero =>
      have hdst' : (movZero op).dst = [dst] := hdst
      have hzero : Literal.denote ⟨0, 64⟩ (Nat.testBit 0 0) = 0 := by decide
      simp only [resultIn, movZero, hdst, List.mapM_cons, List.mapM_nil, SourceOperand.literalIn,
        Option.bind_eq_bind, Option.bind_some, Option.pure_def, combinationalResult, hzero]

/-- A rule is right about the sources it fires on. -/
structure Sound (table : RegisterTable) (op : Operation) (type : BinaryOpType)
    (src0 src1 : SourceOperand) (dstWidth : Nat) (op' : Operation) : Prop where
  hasRule : HasRule type
  shift : type = .shr → op.shouldSignExtend 0 = false ∨ IsZero src0 ∨ IsZero src1
  exact : ∃ f, Meaning op src0 src1 op' f ∧ ∀ regs a b v, src0.literalIn table regs = some a →
    src1.literalIn table regs = some b →
    implementBinaryOp a b dstWidth (op.shouldSignExtend 0) (op.shouldSignExtend 1) type = .ok v →
      f (a.denote (op.shouldSignExtend 0)) (b.denote (op.shouldSignExtend 1))
        ≡ exactBinaryOp type (a.denote (op.shouldSignExtend 0)) (b.denote (op.shouldSignExtend 1))
          [ZMOD 2 ^ dstWidth]

theorem Sound.preserves (hshape : BinaryOpShape table op type src0 src1 dst) {op' : Operation}
    (h : Sound table op type src0 src1 (dst.width table) op') {v : Nat}
    (hv : implementedIn table regs op = .ok v) : resultIn table regs op' = some v := by
  obtain ⟨f, hf, hexact⟩ := h.exact
  rw [implementedIn, hshape.opcode_eq, hshape.src_eq, hshape.dst_eq] at hv
  cases ha : src0.literalIn table regs with
  | none => simp [ha] at hv
  | some a =>
  cases hb : src1.literalIn table regs with
  | none => simp [ha, hb] at hv
  | some b =>
  simp only [List.mapM_cons, List.mapM_nil, ha, hb, Option.bind_eq_bind, Option.bind_some,
    Option.pure_def] at hv
  have hshr : type = .shr → a.negative (op.shouldSignExtend 0) = false ∨ b.value = 0 := by
    intro htype
    rcases h.shift htype with hs | hs | hs
    · rw [hs]
      exact .inl a.negative_false
    · exact .inl (by simp [Literal.negative, value_of_isZero hs ha])
    · exact .inr (value_of_isZero hs hb)
  obtain ⟨-, hvalue⟩ := implementBinaryOp_exact_of_ok h.hasRule
    (literalIn_wellFormed hshape.src0_shape ha) (literalIn_wellFormed hshape.src1_shape hb)
    hshape.dst_pos hshape.dst_le hshr hv
  rw [hf.resultIn_eq hshape.dst_eq ha hb, hvalue]
  exact congrArg some (truncate_eq_truncate_iff.mpr (hexact regs a b v ha hb hv))

/-! ### Zero and one -/

theorem exactBinaryOp_right_zero {x : Int} {d : Nat}
    (htype : type ∈ [BinaryOpType.or, .xor, .add, .sub, .shl, .shr]) :
    x ≡ exactBinaryOp type x 0 [ZMOD 2 ^ d] := by
  have hor : Int.lor x 0 = x := by cases x <;> simp [Int.lor, Nat.ldiff]
  have hxor : Int.xor x 0 = x := by cases x <;> simp [Int.xor]
  cases type with
  | or => exact (congrArg (· % _) hor.symm)
  | xor => exact (congrArg (· % _) hxor.symm)
  | add => simp [exactBinaryOp]
  | sub => simp [exactBinaryOp]
  | shl => simp [exactBinaryOp]
  | shr => simp [exactBinaryOp]
  | _ => simp at htype

theorem exactBinaryOp_left_zero {y : Int} {d : Nat}
    (htype : type ∈ [BinaryOpType.or, .xor, .add]) : y ≡ exactBinaryOp type 0 y [ZMOD 2 ^ d] := by
  have hor : Int.lor 0 y = y := by cases y <;> simp [Int.lor, Nat.ldiff]
  have hxor : Int.xor 0 y = y := by cases y <;> simp [Int.xor]
  cases type with
  | or => exact (congrArg (· % _) hor.symm)
  | xor => exact (congrArg (· % _) hxor.symm)
  | add => simp [exactBinaryOp]
  | _ => simp at htype

theorem exactBinaryOp_annihilated_right {x : Int} {d : Nat}
    (htype : type ∈ [BinaryOpType.and, .lutMul]) : 0 ≡ exactBinaryOp type x 0 [ZMOD 2 ^ d] := by
  have hand : Int.land x 0 = 0 := by cases x <;> simp [Int.land, Nat.ldiff]
  cases type with
  | and => exact (congrArg (· % _) hand.symm)
  | lutMul => simp [exactBinaryOp]
  | _ => simp at htype

theorem exactBinaryOp_annihilated_left {y : Int} {d : Nat}
    (htype : type ∈ [BinaryOpType.and, .shl, .shr, .lutMul]) :
    0 ≡ exactBinaryOp type 0 y [ZMOD 2 ^ d] := by
  have hand : Int.land 0 y = 0 := by cases y <;> simp [Int.land, Nat.ldiff]
  cases type with
  | and => exact (congrArg (· % _) hand.symm)
  | shl => simp [exactBinaryOp]
  | shr => simp [exactBinaryOp]
  | lutMul => simp [exactBinaryOp]
  | _ => simp at htype

/-- The rules for zero, whatever the other source. -/
theorem Sound.right_zero {op' : Operation} {f : Int → Int → Int} {d : Nat} (hrule : HasRule type)
    (hzero : IsZero src1) (hmeaning : Meaning op src0 src1 op' f)
    (hexact : ∀ x, f x 0 ≡ exactBinaryOp type x 0 [ZMOD 2 ^ d]) :
    Sound table op type src0 src1 d op' := by
  refine ⟨hrule, fun _ => .inr (.inr hzero), f, hmeaning, fun regs a b v ha hb _ => ?_⟩
  rw [denote_of_value_zero (value_of_isZero hzero hb)]
  exact hexact _

theorem Sound.left_zero {op' : Operation} {f : Int → Int → Int} {d : Nat} (hrule : HasRule type)
    (hzero : IsZero src0) (hmeaning : Meaning op src0 src1 op' f)
    (hexact : ∀ y, f 0 y ≡ exactBinaryOp type 0 y [ZMOD 2 ^ d]) :
    Sound table op type src0 src1 d op' := by
  refine ⟨hrule, fun _ => .inr (.inl hzero), f, hmeaning, fun regs a b v ha hb _ => ?_⟩
  rw [denote_of_value_zero (value_of_isZero hzero ha)]
  exact hexact _

/-- Where the reference arithmetic extends both sources, a factor of minus one is only taken
    for one by an operand that equals its negation. -/
theorem modEq_neg_of_not_mistaken {x one : SourceOperand} {l m : Literal} {signedX signedOne : Bool}
    {d : Nat} (hx : SourceShape table x) (hl : x.literalIn table regs = some l)
    (hm : one.literalIn table regs = some m) (hmWf : m.WellFormed) (hone : IsOne one)
    (hd : 0 < d) (hwx : l.Widenable signedX d) (hwone : m.Widenable signedOne d)
    (h : ¬ (IsMinusOne table one signedOne d ∧ NotSelfNegating table signedX d x)) :
    l.denote signedX ≡ l.denote signedX * m.denote signedOne [ZMOD 2 ^ d] := by
  have hvalue := value_of_isOne hone hm
  rw [denote_of_value_one hmWf hvalue]
  split
  next hminus =>
    obtain ⟨hsigned, hwidth⟩ := hminus
    have hneg : m.negative signedOne = true := by simp [Literal.negative, hvalue, hwidth, hsigned]
    have hdle : d ≤ 2 ^ 32 := hwone.2 hneg
    rw [mul_neg_one]
    by_cases hd1 : d = 1
    · subst hd1
      exact Int.modEq_iff_dvd.mpr ⟨-l.denote signedX, by ring⟩
    · have hself : ¬ NotSelfNegating table signedX d x := fun hn =>
        h ⟨⟨hone, hsigned, by rw [← literalIn_width hm, hwidth], by omega, hdle⟩, hn⟩
      cases x with
      | literal l' =>
          cases hl
          exact not_not.mp hself
      | register r =>
          refine absurd (fun hs => ?_) hself
          rw [← literalIn_width hl]
          exact hwx.1 hs
      | fifo _ => exact hx.elim
      | stringLiteral _ => exact hx.elim
  next =>
    rw [mul_one]

theorem zeroOrOneRule_sound (hshape : BinaryOpShape table op type src0 src1 dst)
    {known0 known1 : KnownSource} (hzero0 : known0.isZero = true ↔ IsZero src0)
    (hzero1 : known1.isZero = true ↔ IsZero src1) (hone0 : known0.isOne = true ↔ IsOne src0)
    (hone1 : known1.isOne = true ↔ IsOne src1) (hindex0 : Indexable src0)
    (hindex1 : Indexable src1)
    (hmistaken : ¬ Mistaken table op type src0 src1 (dst.width table)) {op' : Operation}
    (h : zeroOrOneRule op type src0 src1 known0 known1 = some op') :
    Sound table op type src0 src1 (dst.width table) op' := by
  rw [zeroOrOneRule] at h
  split at h
  next hz =>
    have hz' := hzero1.mp hz
    cases type <;> simp only [rightZeroRule, reduceCtorEq, Option.some.injEq] at h <;> subst h
    case or | xor | add | sub | shl | shr =>
      exact .right_zero (by simp [HasRule]) hz' .left fun x => exactBinaryOp_right_zero (by simp)
    case and | lutMul =>
      exact .right_zero (by simp [HasRule]) hz' .zero fun x =>
        exactBinaryOp_annihilated_right (by simp)
  next hnz1 =>
  split at h
  next hz =>
    have hz' := hzero0.mp hz
    cases type <;> simp only [leftZeroRule, reduceCtorEq, Option.some.injEq] at h <;> subst h
    case or | xor | add =>
      exact .left_zero (by simp [HasRule]) hz' .right fun x => exactBinaryOp_left_zero (by simp)
    case and | shl | shr | lutMul =>
      exact .left_zero (by simp [HasRule]) hz' .zero fun x =>
        exactBinaryOp_annihilated_left (by simp)
  next hnz0 =>
  have hbad := fun hm => hmistaken ⟨hindex0, hindex1, mt hzero0.mpr hnz0, mt hzero1.mpr hnz1, hm⟩
  split at h
  next hone =>
    obtain ⟨hone, rfl⟩ := hone
    cases h
    refine ⟨by simp [HasRule], nofun, _, .left, fun regs a b v ha hb hv => ?_⟩
    have hwfb := literalIn_wellFormed hshape.src1_shape hb
    obtain ⟨hw0, hw1⟩ := widenable_of_ok (literalIn_wellFormed hshape.src0_shape ha) hwfb
      hshape.dst_pos rfl hv
    exact modEq_neg_of_not_mistaken hshape.src0_shape ha hb hwfb (hone1.mp hone) hshape.dst_pos
      hw0 hw1 fun hm => hbad (.inl hm)
  next hnot1 =>
  split at h
  next hone =>
    obtain ⟨hone, rfl⟩ := hone
    cases h
    refine ⟨by simp [HasRule], nofun, _, .right, fun regs a b v ha hb hv => ?_⟩
    have hwfa := literalIn_wellFormed hshape.src0_shape ha
    obtain ⟨hw0, hw1⟩ := widenable_of_ok hwfa (literalIn_wellFormed hshape.src1_shape hb)
      hshape.dst_pos rfl hv
    have hn : ¬ IsOne src1 := fun hs => hnot1 ⟨hone1.mpr hs, rfl⟩
    have hmod := modEq_neg_of_not_mistaken hshape.src1_shape hb ha hwfa (hone0.mp hone)
      hshape.dst_pos hw1 hw0 fun hm => hbad (.inr ⟨hn, hm⟩)
    rw [mul_comm] at hmod
    exact hmod
  next => exact nomatch h

/-! ### All ones -/

/-- The integers `x` and `o` where `o` has ones for every bit of `x`, or for every bit of the
    destination. -/
def Covered (x o : Int) (d : Nat) : Prop :=
  o ≡ -1 [ZMOD 2 ^ d] ∨ ∃ w, o = 2 ^ w - 1 ∧ 0 ≤ x ∧ x < 2 ^ w

theorem Covered.land {x o : Int} {d : Nat} (h : Covered x o d) :
    x ≡ Int.land x o [ZMOD 2 ^ d] := by
  rcases h with h | ⟨w, rfl, h0, hw⟩
  · have hmod := bitwise_modEq and d (Int.ModEq.refl x) h
    rw [Int.bitwise_and, land_neg_one] at hmod
    exact hmod.symm
  · rw [land_two_pow_sub_one, Int.emod_eq_of_lt h0 hw]

theorem Covered.lor {x o : Int} {d : Nat} (h : Covered x o d) :
    o ≡ Int.lor x o [ZMOD 2 ^ d] := by
  rcases h with h | ⟨w, rfl, h0, hw⟩
  · have hmod := bitwise_modEq or d (Int.ModEq.refl x) h
    rw [Int.bitwise_or, lor_neg_one] at hmod
    exact h.trans hmod.symm
  · lift x to Nat using h0
    rw [lor_ones (by exact_mod_cast hw)]

theorem xor_of_modEq {x o : Int} {d : Nat} (h : o ≡ -1 [ZMOD 2 ^ d]) :
    Int.lnot x ≡ Int.xor x o [ZMOD 2 ^ d] := by
  have hmod := bitwise_modEq xor d (Int.ModEq.refl x) h
  rw [Int.bitwise_xor, xor_neg_one] at hmod
  exact hmod.symm

section Ones

variable {x ones : SourceOperand} {l m : Literal} {signedX signedOnes : Bool} {d : Nat}

theorem denote_ones_modEq (hm : ones.literalIn table regs = some m) (hmWf : m.WellFormed)
    (hones : IsAllOnes ones) (hcover : ones.width table ≥ d ∨ signedOnes = true) :
    m.denote signedOnes ≡ -1 [ZMOD 2 ^ d] := by
  have hvalue := value_of_isAllOnes hones hm
  cases signedOnes with
  | true => rw [denote_of_allOnes_signed hmWf hvalue]
  | false =>
      have hwidth : d ≤ m.width := by
        rw [literalIn_width hm]
        exact hcover.resolve_right (by decide)
      have hcast : (m.value : Int) + 1 = 2 ^ m.width := by exact_mod_cast hvalue
      rw [denote_false, show (m.value : Int) = 2 ^ m.width - 1 by omega]
      exact ones_modEq hwidth

theorem covered_of_rule (hl : x.literalIn table regs = some l) (hlWf : l.WellFormed)
    (hm : ones.literalIn table regs = some m) (hmWf : m.WellFormed) (hones : IsAllOnes ones)
    (hcover : ones.width table ≥ d ∨ signedOnes = true ∨
      (ones.width table ≥ x.width table ∧ signedX = false)) :
    Covered (l.denote signedX) (m.denote signedOnes) d := by
  by_cases hmod : ones.width table ≥ d ∨ signedOnes = true
  · exact .inl (denote_ones_modEq hm hmWf hones hmod)
  · rw [not_or, Bool.not_eq_true] at hmod
    obtain ⟨hwidth, rfl⟩ := (hcover.resolve_left hmod.1).resolve_left (by simp [hmod.2])
    have hle : 2 ^ l.width ≤ 2 ^ m.width := by
      rw [literalIn_width hl, literalIn_width hm]
      exact Nat.pow_le_pow_right (by decide) hwidth
    have hcast : (m.value : Int) + 1 = 2 ^ m.width := by
      exact_mod_cast value_of_isAllOnes hones hm
    have hlt : l.value < 2 ^ m.width := Nat.lt_of_lt_of_le hlWf.fits hle
    rw [hmod.2, denote_false, denote_false]
    exact .inr ⟨m.width, by omega, Int.natCast_nonneg _, by exact_mod_cast hlt⟩

end Ones

theorem allOnesRule_sound (hshape : BinaryOpShape table op type src0 src1 dst)
    {known0 known1 : KnownSource} (hones0 : known0.isAllOnes = true ↔ IsAllOnes src0)
    (hones1 : known1.isAllOnes = true ↔ IsAllOnes src1)
    (hmistaken : type = .xor →
      ¬ CoversSourceOnly table src0 src1 (op.shouldSignExtend 0) (op.shouldSignExtend 1)
          (dst.width table) ∧
      (¬ IsAllOnes src1 → ¬ CoversSourceOnly table src1 src0 (op.shouldSignExtend 1)
          (op.shouldSignExtend 0) (dst.width table)))
    {op' : Operation}
    (h : allOnesRule op type src0 src1 known0 known1 (src0.width table) (src1.width table)
      (dst.width table) = some op') :
    Sound table op type src0 src1 (dst.width table) op' := by
  rw [allOnesRule] at h
  split at h
  next hones =>
    have hones := hones1.mp hones
    split at h
    next hcover =>
      cases type <;> simp only [coveredRule, reduceCtorEq, Option.some.injEq] at h <;> subst h
      case and =>
        refine ⟨by simp [HasRule], nofun, _, .left, fun regs a b v ha hb _ => ?_⟩
        exact (covered_of_rule ha (literalIn_wellFormed hshape.src0_shape ha) hb
          (literalIn_wellFormed hshape.src1_shape hb) hones hcover).land
      case or =>
        refine ⟨by simp [HasRule], nofun, _, .right, fun regs a b v ha hb _ => ?_⟩
        exact (covered_of_rule ha (literalIn_wellFormed hshape.src0_shape ha) hb
          (literalIn_wellFormed hshape.src1_shape hb) hones hcover).lor
      case xor =>
        refine ⟨by simp [HasRule], nofun, _, .invertLeft, fun regs a b v ha hb _ => ?_⟩
        refine xor_of_modEq (denote_ones_modEq hb (literalIn_wellFormed hshape.src1_shape hb) hones
          ?_)
        by_contra hmod
        rw [not_or, Bool.not_eq_true] at hmod
        obtain ⟨hwidth, hs⟩ := (hcover.resolve_left hmod.1).resolve_left (by simp [hmod.2])
        exact (hmistaken rfl).1 ⟨hones, hmod.2, hs, hwidth, by omega⟩
    next => exact nomatch h
  next hn1 =>
  split at h
  next hones =>
    have hones := hones0.mp hones
    split at h
    next hcover =>
      cases type <;> simp only [coveredRule, reduceCtorEq, Option.some.injEq] at h <;> subst h
      case and =>
        refine ⟨by simp [HasRule], nofun, _, .right, fun regs a b v ha hb _ => ?_⟩
        rw [exactBinaryOp, Lib.TwosComplement.land_comm]
        exact (covered_of_rule hb (literalIn_wellFormed hshape.src1_shape hb) ha
          (literalIn_wellFormed hshape.src0_shape ha) hones hcover).land
      case or =>
        refine ⟨by simp [HasRule], nofun, _, .left, fun regs a b v ha hb _ => ?_⟩
        rw [exactBinaryOp, lor_comm]
        exact (covered_of_rule hb (literalIn_wellFormed hshape.src1_shape hb) ha
          (literalIn_wellFormed hshape.src0_shape ha) hones hcover).lor
      case xor =>
        refine ⟨by simp [HasRule], nofun, _, .invertRight, fun regs a b v ha hb _ => ?_⟩
        rw [exactBinaryOp, Lib.Bits.xor_comm]
        refine xor_of_modEq (denote_ones_modEq ha (literalIn_wellFormed hshape.src0_shape ha) hones
          ?_)
        by_contra hmod
        rw [not_or, Bool.not_eq_true] at hmod
        obtain ⟨hwidth, hs⟩ := (hcover.resolve_left hmod.1).resolve_left (by simp [hmod.2])
        exact (hmistaken rfl).2 (mt hones1.mpr hn1) ⟨hones, hmod.2, hs, hwidth, by omega⟩
    next => exact nomatch h
  next => exact nomatch h

/-! ### Shifts -/

theorem shiftRule_sound (hshape : BinaryOpShape table op type src0 src1 dst) {op' : Operation}
    (h : shiftRule op type src1 (src0.width table) (dst.width table) = some op') :
    Sound table op type src0 src1 (dst.width table) op' := by
  unfold shiftRule at h
  split at h
  next amount =>
    split at h
    next hamount =>
      cases h
      refine ⟨by simp [HasRule], (by intro h; cases h), _, .zero, fun regs a b v ha hb hv => ?_⟩
      have hwfb := literalIn_wellFormed hshape.src1_shape hb
      obtain ⟨hneg, -⟩ := not_negative_of_shift_ok (.inl rfl)
        (literalIn_wellFormed hshape.src0_shape ha) hwfb hshape.dst_pos rfl hv
      cases hb
      rw [exactBinaryOp, Literal.denote_of_not_negative hneg, Int.toNat_natCast]
      refine Int.modEq_iff_dvd.mpr ?_
      rw [sub_zero]
      exact Dvd.dvd.mul_left (pow_dvd_pow 2 hamount) _
    next => cases h
  next amount =>
    split at h
    next hamount =>
      obtain ⟨hsigned, hamount⟩ := hamount
      cases h
      refine ⟨by simp [HasRule], fun _ => .inl hsigned, _, .zero, fun regs a b v ha hb hv => ?_⟩
      have hwfa := literalIn_wellFormed hshape.src0_shape ha
      have hdef := (implementBinaryOp_exact_of_ok (by simp [HasRule]) hwfa
        (literalIn_wellFormed hshape.src1_shape hb) hshape.dst_pos hshape.dst_le
        (fun _ => .inl (by rw [hsigned]; exact a.negative_false)) hv).1
      have hwfb := literalIn_wellFormed hshape.src1_shape hb
      cases hb
      have hneg : amount.negative (op.shouldSignExtend 1) = false := by
        rw [← Bool.not_eq_true, ← Literal.denote_neg_iff hwfb]
        exact Int.not_lt.mpr hdef
      have hlt : a.value < 2 ^ amount.value :=
        Nat.lt_of_lt_of_le hwfa.fits (Nat.pow_le_pow_right (by decide)
          (by rw [literalIn_width ha]; exact hamount))
      rw [exactBinaryOp, hsigned, denote_false, Literal.denote_of_not_negative hneg,
        Int.toNat_natCast, Int.ediv_eq_zero_of_lt (Int.natCast_nonneg _) (by exact_mod_cast hlt)]
    next => cases h
  next => cases h

end Rules

/-! ## The pass as a whole -/

section Pass

variable {table : RegisterTable} {op op' : Operation} {type : BinaryOpType}
  {src0 src1 : SourceOperand} {dst : DestinationOperand}

/-- The rules in the order in which they are tried. -/
def replacement (table : RegisterTable) (op : Operation) (type : BinaryOpType)
    (src0 src1 : SourceOperand) (dst : DestinationOperand) (known0 known1 : KnownSource) :
    Option Operation :=
  ((zeroOrOneRule op type src0 src1 known0 known1).or
    (allOnesRule op type src0 src1 known0 known1 (src0.width table) (src1.width table)
      (dst.width table))).or
    (shiftRule op type src1 (src0.width table) (dst.width table))

theorem binaryOpAlgebraicIdentities_eq_true_iff
    (hshape : BinaryOpShape table op type src0 src1 dst) :
    binaryOpAlgebraicIdentities table op = .ok (true, op') ↔
      replacedEarlier type = false ∧ ∃ known0 known1, knownSource src0 = .ok known0 ∧
        knownSource src1 = .ok known1 ∧
        replacement table op type src0 src1 dst known0 known1 = some op' := by
  rw [binaryOpAlgebraicIdentities, hshape.opcode_eq, hshape.src_eq, hshape.dst_eq]
  constructor
  · intro h
    obtain ⟨u, hassert, h⟩ := bind_eq_ok_iff.mp h
    obtain ⟨known0, h0, h⟩ := bind_eq_ok_iff.mp h
    obtain ⟨known1, h1, h⟩ := bind_eq_ok_iff.mp h
    refine ⟨by simpa using of_assert hassert, known0, known1, h0, h1, ?_⟩
    dsimp only at h
    split at h
    next newOp hnew =>
      cases h
      exact hnew
    next => cases h
  · rintro ⟨hearlier, known0, known1, h0, h1, hnew⟩
    rw [replacement] at hnew
    simp only [assert_of_true (by simp [hearlier] : (!replacedEarlier type) = true), h0, h1, ok_bind,
      hnew]
    rfl

/-- Away from the two mistaken rules the value is kept. -/
theorem preservesValue_of_not_mistaken (hshape : BinaryOpShape table op type src0 src1 dst)
    (h : ¬ Mistaken table op type src0 src1 (dst.width table)) : PreservesValue table op := by
  intro op' hop' regs v hv
  obtain ⟨-, known0, known1, h0, h1, hnew⟩ :=
    (binaryOpAlgebraicIdentities_eq_true_iff hshape).mp hop'
  obtain ⟨hindex0, hzero0, hone0, hones0⟩ := knownSource_spec hshape.src0_shape h0
  obtain ⟨hindex1, hzero1, hone1, hones1⟩ := knownSource_spec hshape.src1_shape h1
  refine Sound.preserves hshape ?_ hv
  rw [replacement, Option.or_eq_some_iff, Option.or_eq_some_iff] at hnew
  rcases hnew with (hnew | ⟨hnone, hnew⟩) | ⟨-, hnew⟩
  · exact zeroOrOneRule_sound hshape hzero0 hzero1 hone0 hone1 hindex0 hindex1 h hnew
  · refine allOnesRule_sound hshape hones0 hones1 ?_ hnew
    rintro rfl
    -- A source that is zero would have been replaced by the first rules
    have hn1 : ¬ IsZero src1 := fun hz => by
      rw [zeroOrOneRule, if_pos (hzero1.mpr hz)] at hnone
      exact nomatch hnone
    have hn0 : ¬ IsZero src0 := fun hz => by
      rw [zeroOrOneRule, if_neg (mt hzero1.mp hn1), if_pos (hzero0.mpr hz)] at hnone
      exact nomatch hnone
    exact ⟨fun hc => h ⟨hindex0, hindex1, hn0, hn1, .inl hc⟩,
      fun hones hc => h ⟨hindex0, hindex1, hn0, hn1, .inr ⟨hones, hc⟩⟩⟩
  · exact shiftRule_sound hshape hnew

/-! ### The mistaken rules -/

/-- An operation that was replaced by one with another value in some run does not keep its
    value. -/
theorem not_preservesValue (hshape : BinaryOpShape table op type src0 src1 dst)
    {regs : Nat → Nat} {a b : Literal} (ha : src0.literalIn table regs = some a)
    (hb : src1.literalIn table regs = some b) {f : Int → Int → Int}
    (hop' : binaryOpAlgebraicIdentities table op = .ok (true, op'))
    (hmeaning : Meaning op src0 src1 op' f)
    (hdef : type.Defined (b.denote (op.shouldSignExtend 1)))
    (hrange : BinaryOpInRange a b (dst.width table) (op.shouldSignExtend 0)
      (op.shouldSignExtend 1) type)
    (hne : ¬ f (a.denote (op.shouldSignExtend 0)) (b.denote (op.shouldSignExtend 1))
      ≡ exactBinaryOp type (a.denote (op.shouldSignExtend 0)) (b.denote (op.shouldSignExtend 1))
        [ZMOD 2 ^ dst.width table]) :
    ¬ PreservesValue table op := by
  intro h
  have hexact := (implementBinaryOp_exact_iff (literalIn_wellFormed hshape.src0_shape ha)
    (literalIn_wellFormed hshape.src1_shape hb) _ _ hshape.dst_pos type hdef).mpr hrange
  have himplemented : implementedIn table regs op = .ok (truncate
      (exactBinaryOp type (a.denote (op.shouldSignExtend 0)) (b.denote (op.shouldSignExtend 1)))
      (dst.width table)) := by
    rw [implementedIn, hshape.opcode_eq, hshape.src_eq, hshape.dst_eq, truncate_eq]
    simp only [List.mapM_cons, List.mapM_nil, ha, hb, Option.bind_eq_bind, Option.bind_some,
      Option.pure_def]
    exact hexact
  have hresult := h op' hop' regs _ himplemented
  rw [hmeaning.resultIn_eq hshape.dst_eq ha hb, Option.some.injEq] at hresult
  exact hne (truncate_eq_truncate_iff.mp hresult)

/-- Ones that stop short of the destination leave zeros above them, where inverting does
    not. -/
theorem lnot_not_modEq_xor {x w d : Nat} (hx : x < 2 ^ w) (hd : w < d) :
    ¬ Int.lnot x ≡ Int.xor x (2 ^ w - 1) [ZMOD 2 ^ d] := by
  intro h
  obtain ⟨h0, hlt⟩ := xor_ones_lt hx
  have hdvd := Int.modEq_iff_dvd.mp h
  rw [lnot_eq] at hdvd
  have hpow : (2 : Int) ^ (w + 1) ≤ 2 ^ d := pow_le_pow_right₀ (by decide) hd
  have hx' : (x : Int) < 2 ^ w := by exact_mod_cast hx
  rw [pow_succ] at hpow
  have hle := Int.le_of_dvd (by omega) hdvd
  omega

theorem unsigned_widenable (l : Literal) (d : Nat) : l.Widenable false d := ⟨nofun, nofun⟩

/-- The ones of a source that covers the other one but not the destination. -/
theorem CoversSourceOnly.denote {x ones : SourceOperand} {signedX signedOnes : Bool} {d : Nat}
    (h : CoversSourceOnly table x ones signedX signedOnes d) {regs : Nat → Nat} {l m : Literal}
    (hl : x.literalIn table regs = some l) (hlWf : l.WellFormed)
    (hm : ones.literalIn table regs = some m) :
    m.denote signedOnes = 2 ^ m.width - 1 ∧ l.denote signedX = l.value ∧
      l.value < 2 ^ m.width ∧ m.width < d := by
  obtain ⟨hones, rfl, rfl, hcover, hd⟩ := h
  have hcast : (m.value : Int) + 1 = 2 ^ m.width := by
    exact_mod_cast value_of_isAllOnes hones hm
  rw [← literalIn_width hm] at hcover hd
  rw [← literalIn_width hl] at hcover
  rw [denote_false, denote_false]
  exact ⟨by omega, rfl, Nat.lt_of_lt_of_le hlWf.fits (Nat.pow_le_pow_right (by decide) hcover), hd⟩

theorem not_preservesValue_of_xor (hshape : BinaryOpShape table op .xor src0 src1 dst)
    (h : Mistaken table op .xor src0 src1 (dst.width table)) : ¬ PreservesValue table op := by
  obtain ⟨hindex0, hindex1, hn0, hn1, hbad⟩ := h
  obtain ⟨known0, h0⟩ := knownSource_of_indexable hindex0
  obtain ⟨known1, h1⟩ := knownSource_of_indexable hindex1
  obtain ⟨-, hzero0, -, hones0⟩ := knownSource_spec hshape.src0_shape h0
  obtain ⟨-, hzero1, -, hones1⟩ := knownSource_spec hshape.src1_shape h1
  have hnone : zeroOrOneRule op .xor src0 src1 known0 known1 = none := by
    rw [zeroOrOneRule, if_neg (mt hzero1.mp hn1), if_neg (mt hzero0.mp hn0), if_neg (by simp),
      if_neg (by simp)]
  obtain ⟨a, ha⟩ := literalIn_exists hshape.src0_shape fun _ => 0
  obtain ⟨b, hb⟩ := literalIn_exists hshape.src1_shape fun _ => 0
  have hwfa := literalIn_wellFormed hshape.src0_shape ha
  have hwfb := literalIn_wellFormed hshape.src1_shape hb
  have hfires : ∀ op', allOnesRule op .xor src0 src1 known0 known1 (src0.width table)
      (src1.width table) (dst.width table) = some op' →
      binaryOpAlgebraicIdentities table op = .ok (true, op') := fun op' hop' =>
    (binaryOpAlgebraicIdentities_eq_true_iff hshape).mpr
      ⟨rfl, known0, known1, h0, h1, by rw [replacement, hnone, hop']; rfl⟩
  rcases hbad with hcovers | ⟨hnot, hcovers⟩
  · obtain ⟨hones, hs1, hs0, hcover, hd⟩ := id hcovers
    obtain ⟨hdb, hda, hlt, hwd⟩ := hcovers.denote ha hwfa hb
    refine not_preservesValue hshape ha hb (hfires _ ?_) .invertLeft trivial ?_ ?_
    · rw [allOnesRule, if_pos (hones1.mpr hones), if_pos (.inr (.inr ⟨hcover, hs0⟩))]
      rfl
    · rw [hs0, hs1]
      exact ⟨unsigned_widenable _ _, unsigned_widenable _ _, trivial⟩
    · rw [hda, hdb]
      exact lnot_not_modEq_xor hlt hwd
  · obtain ⟨hones, hs0, hs1, hcover, hd⟩ := id hcovers
    obtain ⟨hda, hdb, hlt, hwd⟩ := hcovers.denote hb hwfb ha
    refine not_preservesValue hshape ha hb (hfires _ ?_) .invertRight trivial ?_ ?_
    · rw [allOnesRule, if_neg (mt hones1.mp hnot), if_pos (hones0.mpr hones),
        if_pos (.inr (.inr ⟨hcover, hs1⟩))]
      rfl
    · rw [hs0, hs1]
      exact ⟨unsigned_widenable _ _, unsigned_widenable _ _, trivial⟩
    · rw [hda, hdb, exactBinaryOp, Lib.Bits.xor_comm]
      exact lnot_not_modEq_xor hlt hwd

/-- A value of the operand that is not its own negation. -/
theorem NotSelfNegating.not_modEq {x : SourceOperand} {signed : Bool} {d : Nat}
    (h : NotSelfNegating table signed d x) (hindex : Indexable x) (hn : ¬ IsZero x)
    (hs : SourceShape table x) (hd : 1 < d) (hdle : d ≤ 2 ^ 32) {l : Literal}
    (hl : x.literalIn table (fun _ => 1) = some l) :
    ¬ l.denote signed ≡ -l.denote signed [ZMOD 2 ^ d] ∧ l.Widenable signed d := by
  cases x with
  | literal l' =>
      have hl' : l' = l := Option.some.inj hl
      subst hl'
      have hidx : l'.width ≤ uint32Max := hindex.resolve_left hn
      have hidx := le_uint32Max_iff.mp hidx
      exact ⟨h, fun _ => by omega, fun _ => hdle⟩
  | register r =>
      have hwf := literalIn_wellFormed hs hl
      have hwidth : signed = true → l.width ≤ 2 ^ 32 := fun hsigned => by
        rw [literalIn_width hl]
        exact h hsigned
      refine ⟨fun hmod => ?_, hwidth, fun _ => hdle⟩
      have hvalue : l.value = 1 := by
        cases hl
        exact Nat.mod_eq_of_lt (Nat.one_lt_two_pow hwf.width_pos.ne')
      have hdvd := Int.modEq_iff_dvd.mp hmod
      rw [denote_of_value_one hwf hvalue] at hdvd
      have hfour : (2 : Int) ^ 2 ≤ 2 ^ d := pow_le_pow_right₀ (by decide) hd
      have hdvd2 : (2 : Int) ^ d ∣ 2 := by
        split at hdvd
        · exact hdvd
        · exact (Int.dvd_neg).mp hdvd
      have hle := Int.le_of_dvd (by decide) hdvd2
      omega
  | fifo _ => exact hs.elim
  | stringLiteral _ => exact hs.elim

theorem IsMinusOne.denote {s : SourceOperand} {signed : Bool} {d : Nat}
    (h : IsMinusOne table s signed d) {regs : Nat → Nat} {l : Literal}
    (hl : s.literalIn table regs = some l) (hwf : l.WellFormed) :
    l.denote signed = -1 ∧ l.Widenable signed d := by
  obtain ⟨hone, hsigned, hwidth, -, hdle⟩ := h
  rw [← literalIn_width hl] at hwidth
  refine ⟨?_, fun _ => by omega, fun _ => hdle⟩
  rw [denote_of_value_one hwf (value_of_isOne hone hl), if_pos ⟨hsigned, hwidth⟩]

theorem not_preservesValue_of_lutMul (hshape : BinaryOpShape table op .lutMul src0 src1 dst)
    (h : Mistaken table op .lutMul src0 src1 (dst.width table)) : ¬ PreservesValue table op := by
  obtain ⟨hindex0, hindex1, hn0, hn1, hbad⟩ := h
  obtain ⟨known0, h0⟩ := knownSource_of_indexable hindex0
  obtain ⟨known1, h1⟩ := knownSource_of_indexable hindex1
  obtain ⟨-, hzero0, hone0, -⟩ := knownSource_spec hshape.src0_shape h0
  obtain ⟨-, hzero1, hone1, -⟩ := knownSource_spec hshape.src1_shape h1
  obtain ⟨a, ha⟩ := literalIn_exists hshape.src0_shape fun _ => 1
  obtain ⟨b, hb⟩ := literalIn_exists hshape.src1_shape fun _ => 1
  have hwfa := literalIn_wellFormed hshape.src0_shape ha
  have hwfb := literalIn_wellFormed hshape.src1_shape hb
  have hfires : ∀ op', zeroOrOneRule op .lutMul src0 src1 known0 known1 = some op' →
      binaryOpAlgebraicIdentities table op = .ok (true, op') := fun op' hop' =>
    (binaryOpAlgebraicIdentities_eq_true_iff hshape).mpr
      ⟨rfl, known0, known1, h0, h1, by rw [replacement, hop']; rfl⟩
  rcases hbad with ⟨hminus, hself⟩ | ⟨hnot, hminus, hself⟩
  · obtain ⟨hdb, hwb⟩ := hminus.denote hb hwfb
    obtain ⟨hone, -, -, hd, hdle⟩ := hminus
    obtain ⟨hmod, hwa⟩ := hself.not_modEq hindex0 hn0 hshape.src0_shape hd hdle ha
    refine not_preservesValue hshape ha hb (hfires _ ?_) .left trivial ⟨hwa, hwb, trivial⟩ ?_
    · rw [zeroOrOneRule, if_neg (mt hzero1.mp hn1), if_neg (mt hzero0.mp hn0),
        if_pos ⟨hone1.mpr hone, rfl⟩]
    · rw [exactBinaryOp, hdb, mul_neg_one]
      exact hmod
  · obtain ⟨hda, hwa⟩ := hminus.denote ha hwfa
    obtain ⟨hone, -, -, hd, hdle⟩ := hminus
    obtain ⟨hmod, hwb⟩ := hself.not_modEq hindex1 hn1 hshape.src1_shape hd hdle hb
    refine not_preservesValue hshape ha hb (hfires _ ?_) .right trivial ⟨hwa, hwb, trivial⟩ ?_
    · rw [zeroOrOneRule, if_neg (mt hzero1.mp hn1), if_neg (mt hzero0.mp hn0),
        if_neg (fun hs => hnot (hone1.mp hs.1)), if_pos ⟨hone0.mpr hone, rfl⟩]
    · rw [exactBinaryOp, hda, neg_one_mul]
      exact hmod

/-- The pass keeps the value of an operation, whatever the registers hold, except when it
    inverts for ones that do not reach the destination's width and when it takes a factor of
    minus one for one. -/
theorem binaryOpAlgebraicIdentities_preserves_iff
    (hshape : BinaryOpShape table op type src0 src1 dst) :
    PreservesValue table op ↔ ¬ Mistaken table op type src0 src1 (dst.width table) := by
  refine ⟨fun h hm => ?_, preservesValue_of_not_mistaken hshape⟩
  cases type with
  | xor => exact not_preservesValue_of_xor hshape hm h
  | lutMul => exact not_preservesValue_of_lutMul hshape hm h
  | _ => exact hm.2.2.2.2

end Pass

/-- `y = x ^ 255` for eight bits of `x` and sixteen of `y`, the literal narrowed to its eight
    bits: the upper byte of `y` is zero. -/
def xorByte : Operation :=
  { opcode := .binaryOp .xor, src := [.register 0, .literal ⟨255, 8⟩], dst := [.register 1] }

/-- `y = x * -1` for eight bits of both, the literal narrowed to one bit. -/
def timesMinusOne : Operation :=
  { opcode := .binaryOp .lutMul, signExtendSourceMask := 2
    src := [.register 0, .literal ⟨1, 1⟩], dst := [.register 0] }

def byteAndWord : RegisterTable := [localRegister 8, localRegister 16]

/-- `x ^ 255` of zero is 255 and is replaced by the inversion 65535; one times minus one is
    255 in eight bits and is replaced by a move of one. -/
theorem binaryOpAlgebraicIdentities_mistaken :
    (implementedIn byteAndWord (fun _ => 0) xorByte = .ok 255 ∧
      (binaryOpAlgebraicIdentities byteAndWord xorByte).map
          (fun r => (r.1, resultIn byteAndWord (fun _ => 0) r.2)) = .ok (true, some 65535)) ∧
    (implementedIn byteAndWord (fun _ => 1) timesMinusOne = .ok 255 ∧
      (binaryOpAlgebraicIdentities byteAndWord timesMinusOne).map
          (fun r => (r.1, resultIn byteAndWord (fun _ => 1) r.2)) = .ok (true, some 1)) := by
  refine ⟨⟨?_, ?_⟩, ⟨?_, ?_⟩⟩ <;> decide +kernel

/-- The shape of `x ^ 255`. -/
theorem xorByte_shape :
    BinaryOpShape byteAndWord xorByte .xor (.register 0) (.literal ⟨255, 8⟩) (.register 1) where
  opcode_eq := rfl
  src_eq := rfl
  dst_eq := rfl
  src0_shape := ⟨by decide, by decide⟩
  src1_shape := ⟨by decide, by decide, by decide⟩
  dst_pos := by decide
  dst_le := by decide

theorem binaryOpAlgebraicIdentities_preserves_iff_xorByte :
    PreservesValue byteAndWord xorByte ↔
      ¬ Mistaken byteAndWord xorByte .xor (.register 0) (.literal ⟨255, 8⟩) 16 :=
  binaryOpAlgebraicIdentities_preserves_iff xorByte_shape

end Kanagawa.Optimize
