/-
  Kanagawa.Optimize.AlgebraicIdentities

  Binary operations with a constant operand (`optimize.cpp`,
  `BinaryOpAlgebraicIdentities`).

  An operation such as `x + 0`, `x & 1s` or `x * 1` is replaced by a `Mov`, an
  `Invert` or a constant.  Two of the rules look at too little.  `x ^ 1s = ~x`
  is applied when the ones cover `x` but not the destination, where inverting
  also sets the bits above them; and the rule for `LutMul` by one takes a
  one-bit sign-extended literal, which is minus one, for one.
-/
import Kanagawa.IR.Combinational

namespace Kanagawa.Optimize

open IR

/-! ## The pass -/

/-- `srcIsZero`, `srcIsOne` and `srcIsAllOnes` for one source. -/
structure KnownSource where
  isZero : Bool := false
  isOne : Bool := false
  isAllOnes : Bool := false
  deriving Repr, DecidableEq

def knownSource : SourceOperand → Except Failure KnownSource
  | .literal literal =>
      if literal.value = 0 then .ok { isZero := true }
      else do
        let allOnes ← bitSet 0 literal.width
        return { isOne := literal.value = 1, isAllOnes := literal.value = allOnes - 1 }
  | _ => .ok {}

/-- A new operation with the destination and locations of the old one, and with the source
    `i` of the old one. -/
def unaryOf (op : Operation) (opcode : Opcode) (srcOp : SourceOperand) (i : Nat) : Operation :=
  Operation.pushOperand { opcode := opcode, dst := op.dst, tag := op.tag } srcOp
    (op.shouldSignExtend i)

/-- `Mov` of the constant zero, a 64-bit literal. -/
def movZero (op : Operation) : Operation :=
  { opcode := .mov, src := [.literal ⟨0, 64⟩], dst := op.dst, tag := op.tag }

/-- The rules for `op(x, 0)`. -/
def rightZeroRule (op : Operation) (src0 : SourceOperand) : BinaryOpType → Option Operation
  | .or | .xor | .add | .sub | .shl | .shr => some (unaryOf op .mov src0 0)
  | .and | .lutMul => some (movZero op)
  | _ => none

/-- The rules for `op(0, x)`. -/
def leftZeroRule (op : Operation) (src1 : SourceOperand) : BinaryOpType → Option Operation
  | .or | .xor | .add => some (unaryOf op .mov src1 1)
  | .and | .shl | .shr | .lutMul => some (movZero op)
  | _ => none

/-- The rules for a source that is zero, and for a factor that is one. -/
def zeroOrOneRule (op : Operation) (type : BinaryOpType) (src0 src1 : SourceOperand)
    (known0 known1 : KnownSource) : Option Operation :=
  if known1.isZero then rightZeroRule op src0 type
  else if known0.isZero then leftZeroRule op src1 type
  else if known1.isOne ∧ type = .lutMul then some (unaryOf op .mov src0 0)
  else if known0.isOne ∧ type = .lutMul then some (unaryOf op .mov src1 1)
  else none

/-- The rules for a source `ones` at index `i` whose bits are all ones, when they cover the
    other source or the destination. -/
def coveredRule (op : Operation) (type : BinaryOpType) (x ones : SourceOperand) (j i : Nat) :
    Option Operation :=
  match type with
  | .and => some (unaryOf op .mov x j)
  | .or => some (unaryOf op .mov ones i)
  | .xor => some (unaryOf op (.unaryOp .invert) x j)
  | _ => none

def allOnesRule (op : Operation) (type : BinaryOpType) (src0 src1 : SourceOperand)
    (known0 known1 : KnownSource) (srcWidth0 srcWidth1 dstWidth : Nat) : Option Operation :=
  if known1.isAllOnes then
    if srcWidth1 ≥ dstWidth ∨ op.shouldSignExtend 1 = true ∨
        (srcWidth1 ≥ srcWidth0 ∧ op.shouldSignExtend 0 = false) then
      coveredRule op type src0 src1 0 1
    else none
  else if known0.isAllOnes then
    if srcWidth0 ≥ dstWidth ∨ op.shouldSignExtend 0 = true ∨
        (srcWidth0 ≥ srcWidth1 ∧ op.shouldSignExtend 1 = false) then
      coveredRule op type src1 src0 1 0
    else none
  else none

/-- Shifts by a literal that leave nothing. -/
def shiftRule (op : Operation) (type : BinaryOpType) (src1 : SourceOperand)
    (srcWidth0 dstWidth : Nat) : Option Operation :=
  match type, src1 with
  | .shl, .literal amount => if amount.value ≥ dstWidth then some (movZero op) else none
  | .shr, .literal amount =>
      if op.shouldSignExtend 0 = false ∧ amount.value ≥ srcWidth0 then some (movZero op) else none
  | _, _ => none

/-- The operators that are gone before this optimization. -/
def replacedEarlier : BinaryOpType → Bool
  | .mul | .div | .logicalAnd | .logicalOr | .logicalXor => true
  | _ => false

/-- `BinaryOpAlgebraicIdentities`: whether the operation was replaced, and the operation. -/
def binaryOpAlgebraicIdentities (table : RegisterTable) (op : Operation) :
    Except Failure (Bool × Operation) :=
  match op.opcode, op.src, op.dst with
  | .binaryOp type, [src0, src1], [dst] => do
      assert (!replacedEarlier type)
      let srcWidth0 := src0.width table
      let srcWidth1 := src1.width table
      let dstWidth := dst.width table
      let known0 ← knownSource src0
      let known1 ← knownSource src1
      let newOp :=
        ((zeroOrOneRule op type src0 src1 known0 known1).or
          (allOnesRule op type src0 src1 known0 known1 srcWidth0 srcWidth1 dstWidth)).or
          (shiftRule op type src1 srcWidth0 dstWidth)
      match newOp with
      | some newOp => return (true, newOp)
      | none => return (false, op)
  | _, _, _ => .error .assertion

/-! ## What is claimed, and where it fails -/

/-- The value an operation gives its destination when the registers are `regs`. -/
def resultIn (table : RegisterTable) (regs : Nat → Nat) (op : Operation) : Option Nat := do
  let sources ← op.src.mapM (SourceOperand.literalIn table regs)
  match op.dst with
  | [dst] => combinationalResult op.opcode op.signExtendSourceMask (dst.width table) sources
  | _ => none

/-- The value `ImplementBinaryOp` defines for a binary operation. -/
def implementedIn (table : RegisterTable) (regs : Nat → Nat) (op : Operation) :
    Except Failure Nat :=
  match op.opcode, op.src.mapM (SourceOperand.literalIn table regs), op.dst with
  | .binaryOp type, some [a, b], [dst] =>
      implementBinaryOp a b (dst.width table) (op.shouldSignExtend 0) (op.shouldSignExtend 1) type
  | _, _, _ => .error .assertion

/-- Whatever replaces the operation leaves what `ImplementBinaryOp` defines for it. -/
def PreservesValue (table : RegisterTable) (op : Operation) : Prop :=
  ∀ op', binaryOpAlgebraicIdentities table op = .ok (true, op') →
    ∀ regs v, implementedIn table regs op = .ok v → resultIn table regs op' = some v

/-- Registers and literals of positive width; a literal's value fits its width. -/
def SourceShape (table : RegisterTable) : SourceOperand → Prop
  | .literal l => l.WellFormed
  | .register r => 0 < (table.desc r).width ∧ (table.desc r).width ≤ sizeMax
  | _ => False

theorem literalIn_wellFormed {table : RegisterTable} {regs : Nat → Nat} {s : SourceOperand}
    {l : Literal} (hs : SourceShape table s)
    (h : s.literalIn table regs = some l) : l.WellFormed := by
  cases s with
  | literal l' =>
      cases h
      exact hs
  | register r =>
      cases h
      exact ⟨Nat.mod_lt _ (Nat.two_pow_pos _), hs.1, hs.2⟩
  | fifo _ => exact nomatch h
  | stringLiteral _ => exact nomatch h

theorem literalIn_width {table : RegisterTable} {regs : Nat → Nat} {s : SourceOperand}
    {l : Literal} (h : s.literalIn table regs = some l) : l.width = s.width table := by
  cases s with
  | literal _ => cases h; rfl
  | register _ => cases h; rfl
  | fifo _ => exact nomatch h
  | stringLiteral _ => exact nomatch h

theorem literalIn_exists {table : RegisterTable} {s : SourceOperand} (hs : SourceShape table s) (regs : Nat → Nat) :
    ∃ l, s.literalIn table regs = some l := by
  cases s with
  | literal l => exact ⟨l, rfl⟩
  | register r => exact ⟨_, rfl⟩
  | fifo _ => exact hs.elim
  | stringLiteral _ => exact hs.elim

/-- A binary operation on registers and literals. -/
structure BinaryOpShape (table : RegisterTable) (op : Operation) (type : BinaryOpType)
    (src0 src1 : SourceOperand) (dst : DestinationOperand) : Prop where
  opcode_eq : op.opcode = .binaryOp type
  src_eq : op.src = [src0, src1]
  dst_eq : op.dst = [dst]
  src0_shape : SourceShape table src0
  src1_shape : SourceShape table src1
  dst_pos : 0 < dst.width table
  dst_le : dst.width table ≤ sizeMax

/-- A literal whose width `bit_set` accepts, or whose value is zero. -/
def Indexable : SourceOperand → Prop
  | .literal l => l.value = 0 ∨ l.width ≤ uint32Max
  | _ => True

def IsZero : SourceOperand → Prop
  | .literal l => l.value = 0
  | _ => False

def IsOne : SourceOperand → Prop
  | .literal l => l.value = 1
  | _ => False

def IsAllOnes : SourceOperand → Prop
  | .literal l => l.value + 1 = 2 ^ l.width
  | _ => False

/-- The ones are as wide as the other source but not as the destination, and nothing is
    sign extended. -/
def CoversSourceOnly (table : RegisterTable) (x ones : SourceOperand) (signedX signedOnes : Bool)
    (dstWidth : Nat) : Prop :=
  IsAllOnes ones ∧ signedOnes = false ∧ signedX = false ∧ x.width table ≤ ones.width table ∧
    ones.width table < dstWidth

/-- A sign-extended literal of one bit that is set, where the destination tells minus one
    from one. -/
def IsMinusOne (table : RegisterTable) (s : SourceOperand) (signed : Bool) (dstWidth : Nat) : Prop :=
  IsOne s ∧ signed = true ∧ s.width table = 1 ∧ 1 < dstWidth ∧ dstWidth ≤ 2 ^ 32

/-- Some value of the operand, which `ImplementBinaryOp` can extend, is not its own negation
    in the destination. -/
def NotSelfNegating (table : RegisterTable) (signed : Bool) (dstWidth : Nat) :
    SourceOperand → Prop
  | .literal l => ¬ l.denote signed ≡ -l.denote signed [ZMOD 2 ^ dstWidth]
  | s => signed = true → s.width table ≤ 2 ^ 32

/-- The operations the pass gets wrong. -/
def Mistaken (table : RegisterTable) (op : Operation) (type : BinaryOpType)
    (src0 src1 : SourceOperand) (dstWidth : Nat) : Prop :=
  Indexable src0 ∧ Indexable src1 ∧ ¬ IsZero src0 ∧ ¬ IsZero src1 ∧
  match type with
  | .xor =>
      CoversSourceOnly table src0 src1 (op.shouldSignExtend 0) (op.shouldSignExtend 1) dstWidth ∨
        (¬ IsAllOnes src1 ∧
          CoversSourceOnly table src1 src0 (op.shouldSignExtend 1) (op.shouldSignExtend 0) dstWidth)
  | .lutMul =>
      (IsMinusOne table src1 (op.shouldSignExtend 1) dstWidth ∧
        NotSelfNegating table (op.shouldSignExtend 0) dstWidth src0) ∨
      (¬ IsOne src1 ∧ IsMinusOne table src0 (op.shouldSignExtend 0) dstWidth ∧
        NotSelfNegating table (op.shouldSignExtend 1) dstWidth src1)
  | _ => False

end Kanagawa.Optimize
