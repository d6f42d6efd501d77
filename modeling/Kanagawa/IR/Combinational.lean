/-
  Kanagawa.IR.Combinational

  Operations that only compute, and passes that emit them.

  Here an operation has the meaning of the hardware it becomes: its sources stand
  for integers of any size, the operator is the exact one, and the destination
  keeps the low bits.  A pass that replaces one operation by several allocates a
  register for each intermediate result; an `Emission` is the register table and
  the list of operations so far, and `Emission.Reads` says what an operand is
  known to hold once they have run.
-/
import Kanagawa.Arith.Exact
import Kanagawa.IR.Semantics

namespace Kanagawa.IR

open Lib.Bits

/-! ## Meaning -/

/-- Two truncations agree exactly when the integers are congruent. -/
theorem truncate_eq_truncate_iff {x y : Int} {n : Nat} :
    truncate x n = truncate y n ↔ x ≡ y [ZMOD 2 ^ n] := by
  rw [truncate_eq y, truncate_eq_iff]

/-- The literal a source operand stands for: itself, or the bits of its register. -/
def SourceOperand.literalIn (table : RegisterTable) (regs : Nat → Nat) :
    SourceOperand → Option Literal
  | .literal l => some l
  | .register r => some ⟨regs r % 2 ^ (table.desc r).width, (table.desc r).width⟩
  | _ => none

instance (type : BinaryOpType) (b : Int) : Decidable (type.Defined b) :=
  match type with
  | .div | .mod => inferInstanceAs (Decidable (0 < b))
  | .shl | .shr => inferInstanceAs (Decidable (0 ≤ b))
  | .add | .sub | .mul | .lutMul | .and | .logicalAnd | .or | .logicalOr | .xor | .logicalXor
  | .eq | .ne | .gt | .ge | .lt | .le => inferInstanceAs (Decidable True)

theorem natCast_truncate (x : Int) (w : Nat) : (truncate x w : Int) = x % 2 ^ w := by
  rw [truncate_eq, Int.toNat_of_nonneg (Int.emod_nonneg _ (by positivity))]

theorem denote_false (l : Literal) : l.denote false = l.value :=
  Literal.denote_of_not_negative l.negative_false

/-- The bits of a literal give its integer modulo two to its width, signed or not. -/
theorem denote_modEq_value (l : Literal) (signed : Bool) :
    l.denote signed ≡ l.value [ZMOD 2 ^ l.width] := by
  cases hneg : l.negative signed with
  | true =>
      rw [Literal.denote_of_negative hneg]
      exact Int.modEq_iff_dvd.mpr ⟨1, by ring⟩
  | false => rw [Literal.denote_of_not_negative hneg]

/-- The word of `w` bits at bit `o`. -/
def wordAt (x : Int) (o w : Nat) : Nat := truncate (x / 2 ^ o) w

theorem wordAt_lt (x : Int) (o w : Nat) : wordAt x o w < 2 ^ w := truncate_lt _ _

theorem natCast_wordAt (x : Int) (o w : Nat) : (wordAt x o w : Int) = x / 2 ^ o % 2 ^ w :=
  natCast_truncate _ _

/-- The top bit of a truncated integer. -/
theorem wordAt_truncate_top (x : Int) (w : Nat) :
    (wordAt (truncate x (w + 1)) w 1 : Int) = x / 2 ^ w % 2 := by
  rw [natCast_wordAt, natCast_truncate, pow_one]
  have hpow : (2 : Int) ^ (w + 1) = 2 ^ w * 2 := by ring
  have hne : (2 : Int) ^ w ≠ 0 := by positivity
  have hsplit := Int.emod_add_mul_ediv x (2 ^ (w + 1))
  rw [hpow] at hsplit ⊢
  have hdiv : x / 2 ^ w = x % (2 ^ w * 2) / 2 ^ w + 2 * (x / (2 ^ w * 2)) := by
    rw [← Int.add_mul_ediv_left _ _ hne]
    congr 1
    linarith
  rw [hdiv, Int.add_mul_emod_self_left]

/-- Truncation keeps the low bits. -/
theorem testBit_truncate (x : Int) (d j : Nat) :
    (truncate x d).testBit j = (decide (j < d) && x.testBit j) := by
  have hcast : ((truncate x d : Nat) : Int).testBit j = (x % 2 ^ d).testBit j := by
    rw [natCast_truncate]
  have hmask : ((2 : Int) ^ d - 1).testBit j = decide (j < d) := by
    rw [← natCast_two_pow_sub_one]
    exact Nat.testBit_two_pow_sub_one d j
  show ((truncate x d : Nat) : Int).testBit j = _
  rw [hcast, ← land_two_pow_sub_one, Int.testBit_land, hmask, Bool.and_comm]

/-- The bits of the integer a literal stands for: beyond its width, its sign. -/
theorem testBit_denote {l : Literal} (h : l.value < 2 ^ l.width) (signed : Bool) (j : Nat) :
    (l.denote signed).testBit j = if j < l.width then l.value.testBit j else l.negative signed := by
  have hhigh : l.width ≤ j → l.value.testBit j = false := fun hj =>
    Nat.testBit_lt_two_pow (Nat.lt_of_lt_of_le h (Nat.pow_le_pow_right (by decide) hj))
  cases hneg : l.negative signed with
  | false =>
      rw [Literal.denote_of_not_negative hneg]
      show l.value.testBit j = _
      split
      · rfl
      · next hj => exact hhigh (Nat.le_of_not_lt hj)
  | true =>
      have hcompl : (l.value : Int) - 2 ^ l.width = Int.negSucc (2 ^ l.width - (l.value + 1)) := by
        rw [Int.negSucc_eq]
        have := h
        push_cast [Nat.cast_sub (Nat.succ_le_of_lt h)]
        ring
      rw [Literal.denote_of_negative hneg, hcompl]
      show (!Nat.testBit _ j) = _
      rw [Nat.testBit_two_pow_sub_succ h]
      split
      · next hj => simp [hj]
      · next hj => simp [hj]

/-- What an operation that only computes leaves in a destination of the given width.
    The choices of a `Select` follow its index among the sources. -/
def combinationalResult (opcode : Opcode) (mask dstWidth : Nat) (sources : List Literal) :
    Option Nat :=
  match opcode, sources with
  | .mov, [a] => some (truncate (a.denote (mask.testBit 0)) dstWidth)
  | .clear, [] => some 0
  | .unaryOp type, [a] => some (truncate (exactUnaryOp type (a.denote (mask.testBit 0))) dstWidth)
  | .binaryOp type, [a, b] =>
      if type.Defined (b.denote (mask.testBit 1)) then
        some (truncate
          (exactBinaryOp type (a.denote (mask.testBit 0)) (b.denote (mask.testBit 1))) dstWidth)
      else none
  | .select, index :: choices =>
      choices[index.value]?.map fun choice =>
        truncate (choice.denote (mask.testBit (index.value + 1))) dstWidth
  | .gather entries, sources => some (truncate (gatherBits entries sources : Nat) dstWidth)
  | .lut entries, sources => some (truncate (lutBits entries sources : Nat) dstWidth)
  | _, _ => none

theorem combinationalResult_lt {opcode : Opcode} {mask dstWidth v : Nat} {sources : List Literal}
    (h : combinationalResult opcode mask dstWidth sources = some v) : v < 2 ^ dstWidth := by
  unfold combinationalResult at h
  split at h
  case h_2 => cases h; exact Nat.two_pow_pos dstWidth
  case h_4 =>
    split at h
    · cases h; exact truncate_lt _ _
    · exact nomatch h
  case h_5 =>
    obtain ⟨choice, -, rfl⟩ := Option.map_eq_some_iff.mp h
    exact truncate_lt _ _
  case h_8 => exact nomatch h
  all_goals cases h; exact truncate_lt _ _

/-- One operation, on the values of the registers. -/
def execCombinational (table : RegisterTable) (regs : Nat → Nat) (op : Operation) :
    Option (Nat → Nat) := do
  let sources ← op.src.mapM (SourceOperand.literalIn table regs)
  match op.dst with
  | [.register r] => do
      let value ← combinationalResult op.opcode op.signExtendSourceMask (table.desc r).width sources
      return Function.update regs r value
  | _ => none

/-- A list of operations, in order. -/
def runCombinational (table : RegisterTable) (regs : Nat → Nat) (ops : List Operation) :
    Option (Nat → Nat) :=
  ops.foldlM (execCombinational table) regs

theorem runCombinational_append (table : RegisterTable) (regs : Nat → Nat)
    (ops ops' : List Operation) :
    runCombinational table regs (ops ++ ops')
      = (runCombinational table regs ops).bind fun regs' => runCombinational table regs' ops' :=
  List.foldlM_append

/-! ## Emitting operations -/

/-- `PushOperand`: a source operand and its sign extension flag. -/
def Operation.pushOperand (op : Operation) (srcOp : SourceOperand) (signExtend : Bool) :
    Operation :=
  { op with
    src := op.src ++ [srcOp]
    signExtendSourceMask :=
      if signExtend then op.signExtendSourceMask ||| 2 ^ op.src.length
      else op.signExtendSourceMask }

/-- The description of a register that `AllocateRegister` makes for a pass. -/
def localRegister (width : Nat) : RegisterDescription :=
  ⟨width, .local, false, false, none⟩

/-- The register table and the operations a pass has made. -/
structure Emission where
  table : RegisterTable
  ops : List Operation

/-- `SourceOperand(const size_t)`: a 64-bit literal. -/
def sizeLiteral (value : Nat) : SourceOperand := .literal ⟨value, 64⟩

namespace Emission

/-- Appends an operation that writes an existing register. -/
def push (e : Emission) (op : Operation) : Emission := ⟨e.table, e.ops ++ [op]⟩

/-- Allocates the destination of an operation and appends the operation. -/
def emit (e : Emission) (op : Operation) (dstWidth : Nat) : Nat × Emission :=
  (e.table.length,
    ⟨e.table ++ [localRegister dstWidth],
      e.ops ++ [{ op with dst := [.register e.table.length] }]⟩)

/-- A `BinaryOp` operation before it has a destination. -/
def binaryOperation (opType : BinaryOpType) (src0 : SourceOperand) (signExtend0 : Bool)
    (src1 : SourceOperand) (signExtend1 : Bool) : Operation :=
  (Operation.pushOperand { opcode := .binaryOp opType } src0 signExtend0).pushOperand src1
    signExtend1

/-- `BinaryOp`, with the operation appended. -/
def binaryOp (e : Emission) (opType : BinaryOpType) (dstWidth : Nat) (src0 : SourceOperand)
    (signExtend0 : Bool) (src1 : SourceOperand) (signExtend1 : Bool) : Nat × Emission :=
  e.emit (binaryOperation opType src0 signExtend0 src1 signExtend1) dstWidth

/-- `Mux21`, with the operation appended: the first source when the index is zero. -/
def mux21 (e : Emission) (dstWidth : Nat) (selectIndex src0 : SourceOperand) (signExtend0 : Bool)
    (src1 : SourceOperand) (signExtend1 : Bool) : Nat × Emission :=
  e.emit (((Operation.pushOperand { opcode := .select } selectIndex false).pushOperand src0
    signExtend0).pushOperand src1 signExtend1) dstWidth

/-- `Concat`, with the operation appended: the first source is the least significant. -/
def concat (e : Emission) (srcOperands : List SourceOperand) : Nat × Emission :=
  let step := fun (acc : List GatherEntry × Nat) (srcOp : SourceOperand) =>
    (acc.1 ++ [⟨0, acc.2, srcOp.width e.table⟩], acc.2 + srcOp.width e.table)
  let gathered := srcOperands.foldl step ([], 0)
  e.emit { opcode := .gather gathered.1, src := srcOperands } gathered.2

/-! ### What operands hold -/

/-- After the emitted operations, started on `start`, the registers are `regs`.  This stays
    so when more registers are allocated. -/
def Runs (e : Emission) (start regs : Nat → Nat) : Prop :=
  ∀ table, e.table <+: table → runCombinational table start e.ops = some regs

/-- An operand of allocated registers holds a literal. -/
structure Reads (e : Emission) (regs : Nat → Nat) (s : SourceOperand) (l : Literal) : Prop where
  allocated : ∀ r, s = .register r → r < e.table.length
  value : s.literalIn e.table regs = some l

theorem Reads.of_grow {e : Emission} {regs : Nat → Nat} {s : SourceOperand} {l : Literal}
    (h : Reads e regs s l) {table : RegisterTable} (hgrow : e.table <+: table) :
    s.literalIn table regs = some l := by
  cases s with
  | register r =>
      have hdesc := desc_of_grow hgrow (h.allocated r rfl)
      have hvalue := h.value
      simp only [SourceOperand.literalIn] at hvalue ⊢
      rw [hdesc]
      exact hvalue
  | literal _ => exact h.value
  | fifo _ => exact h.value
  | stringLiteral _ => exact h.value

theorem Reads.mapM_eq {e : Emission} {regs : Nat → Nat} {table : RegisterTable}
    (hgrow : e.table <+: table) {src : List SourceOperand} {literals : List Literal}
    (h : List.Forall₂ (Reads e regs) src literals) :
    src.mapM (SourceOperand.literalIn table regs) = some literals := by
  induction h with
  | nil => rfl
  | cons hs _ ih =>
      rw [List.mapM_cons, hs.of_grow hgrow, ih]
      rfl

theorem Reads.width_eq {e : Emission} {regs : Nat → Nat} {s : SourceOperand} {l : Literal}
    (h : Reads e regs s l) : s.width e.table = l.width := by
  have hvalue := h.value
  cases s with
  | literal _ => cases hvalue; rfl
  | register _ => cases hvalue; rfl
  | fifo _ => exact nomatch hvalue
  | stringLiteral _ => exact nomatch hvalue

theorem Reads.literal (e : Emission) (regs : Nat → Nat) (l : Literal) :
    Reads e regs (.literal l) l :=
  ⟨nofun, rfl⟩

theorem Reads.register_iff {e : Emission} {regs : Nat → Nat} {r : Nat} {l : Literal} :
    Reads e regs (.register r) l ↔
      r < e.table.length ∧ (e.table.desc r).width = l.width ∧
        regs r % 2 ^ l.width = l.value := by
  constructor
  · intro h
    have hvalue : (⟨_, _⟩ : Literal) = l := Option.some.inj h.value
    subst hvalue
    exact ⟨h.allocated r rfl, rfl, rfl⟩
  · intro ⟨hr, hwidth, hvalue⟩
    refine ⟨?_, ?_⟩
    · intro r' h
      cases h
      exact hr
    · simp only [SourceOperand.literalIn, hwidth, hvalue]

/-- What `emit` knows of the new register, and keeps of the others. -/
structure Extends (e e' : Emission) (start regs regs' : Nat → Nat) : Prop where
  grows : e.table <+: e'.table
  runs : Runs e' start regs'
  keeps : ∀ {s : SourceOperand} {l : Literal}, Reads e regs s l → Reads e' regs' s l
  frame : ∀ r, r < e.table.length → regs' r = regs r

theorem Extends.refl {e : Emission} {start regs : Nat → Nat} (h : Runs e start regs) :
    Extends e e start regs regs :=
  ⟨List.prefix_rfl, h, fun hs => hs, fun _ _ => rfl⟩

theorem Extends.trans {e e' e'' : Emission} {start regs regs' regs'' : Nat → Nat}
    (h : Extends e e' start regs regs') (h' : Extends e' e'' start regs' regs'') :
    Extends e e'' start regs regs'' :=
  ⟨h.grows.trans h'.grows, h'.runs, fun hs => h'.keeps (h.keeps hs), fun r hr =>
    (h'.frame r (Nat.lt_of_lt_of_le hr h.grows.length_le)).trans (h.frame r hr)⟩

/-- An emitted operation puts its result in the register it allocates, and every operand
    known before keeps its value. -/
theorem emit_extends {e : Emission} {start regs : Nat → Nat} (hruns : Runs e start regs)
    {op : Operation} {dstWidth v : Nat} {literals : List Literal}
    (hsrc : List.Forall₂ (Reads e regs) op.src literals)
    (hresult : combinationalResult op.opcode op.signExtendSourceMask dstWidth literals = some v) :
    ∃ regs', Extends e (e.emit op dstWidth).2 start regs regs' ∧
      Reads (e.emit op dstWidth).2 regs' (.register (e.emit op dstWidth).1) ⟨v, dstWidth⟩ := by
  have hdesc : (RegisterTable.desc (e.table ++ [localRegister dstWidth]) e.table.length).width
      = dstWidth := by
    rw [desc_append_self]
    rfl
  refine ⟨Function.update regs e.table.length v, ⟨?_, ?_, ?_, ?_⟩, ?_⟩
  · exact List.prefix_append _ _
  · intro (table : RegisterTable) hgrow
    have hgrow' : e.table <+: table := (List.prefix_append _ _).trans hgrow
    have hlength : e.table.length < (e.table ++ [localRegister dstWidth]).length := by simp
    show runCombinational table start (e.ops ++ [_]) = _
    rw [runCombinational_append, hruns table hgrow', Option.bind_some, runCombinational]
    simp only [List.foldlM_cons, List.foldlM_nil, execCombinational, Reads.mapM_eq hgrow' hsrc,
      Option.bind_eq_bind, Option.bind_some, Option.pure_def]
    have hwidth : (table.desc e.table.length).width = dstWidth := by
      rw [desc_of_grow hgrow hlength]
      exact hdesc
    rw [hwidth, hresult]
    rfl
  · intro s l hs
    cases s with
    | register r =>
        obtain ⟨hr, hwidth, hvalue⟩ := Reads.register_iff.mp hs
        refine Reads.register_iff.mpr ⟨?_, ?_, ?_⟩
        · show r < (e.table ++ [_]).length
          rw [List.length_append]
          omega
        · show (RegisterTable.desc (e.table ++ [_]) r).width = _
          rw [← hwidth, desc_of_grow (List.prefix_append _ _) hr]
        · rw [Function.update_of_ne (by omega), hvalue]
    | literal _ => exact ⟨nofun, hs.value⟩
    | fifo _ => exact ⟨nofun, hs.value⟩
    | stringLiteral _ => exact ⟨nofun, hs.value⟩
  · intro r hr
    exact Function.update_of_ne (by omega) _ _
  · refine Reads.register_iff.mpr ⟨?_, hdesc, ?_⟩
    · show e.table.length < (e.table ++ [_]).length
      simp
    · show Function.update regs e.table.length v e.table.length % 2 ^ dstWidth = v
      rw [Function.update_self, Nat.mod_eq_of_lt (combinationalResult_lt hresult)]

/-- The last operation of a pass writes the register of the original one. -/
theorem push_runs {e : Emission} {start regs : Nat → Nat} (hruns : Runs e start regs)
    {op : Operation} {r v : Nat} {literals : List Literal} (hdst : op.dst = [.register r])
    (hsrc : List.Forall₂ (Reads e regs) op.src literals)
    (hresult : combinationalResult op.opcode op.signExtendSourceMask (e.table.desc r).width
      literals = some v) :
    runCombinational e.table start (e.push op).ops = some (Function.update regs r v) := by
  show runCombinational e.table start (e.ops ++ [op]) = _
  rw [runCombinational_append, hruns e.table List.prefix_rfl, Option.bind_some, runCombinational]
  simp only [List.foldlM_cons, List.foldlM_nil, execCombinational,
    Reads.mapM_eq List.prefix_rfl hsrc, hdst, hresult, Option.bind_eq_bind, Option.bind_some,
    Option.pure_def]

/-! ### Binary operations and multiplexers -/

theorem pushOperand_mask (opcode : Opcode) (a b : SourceOperand) (s t : Bool) :
    (((Operation.pushOperand { opcode := opcode } a s).pushOperand b t).signExtendSourceMask.testBit
      0 = s) ∧
    (((Operation.pushOperand { opcode := opcode } a s).pushOperand b t).signExtendSourceMask.testBit
      1 = t) := by
  cases s <;> cases t <;> simp [Operation.pushOperand] <;> decide

theorem binaryOp_extends {e : Emission} {start regs : Nat → Nat} (hruns : Runs e start regs)
    {opType : BinaryOpType} {a b : SourceOperand} {s t : Bool} {x y : Literal} (dstWidth : Nat)
    (ha : Reads e regs a x) (hb : Reads e regs b y) (hdef : opType.Defined (y.denote t)) :
    ∃ regs', Extends e (e.binaryOp opType dstWidth a s b t).2 start regs regs' ∧
      Reads (e.binaryOp opType dstWidth a s b t).2 regs'
        (.register (e.binaryOp opType dstWidth a s b t).1)
        ⟨truncate (exactBinaryOp opType (x.denote s) (y.denote t)) dstWidth, dstWidth⟩ := by
  refine emit_extends hruns (.cons ha (.cons hb .nil)) ?_
  obtain ⟨h0, h1⟩ := pushOperand_mask (.binaryOp opType) a b s t
  show combinationalResult (.binaryOp opType) _ _ _ = _
  rw [combinationalResult, binaryOperation, h0, h1, if_pos hdef]

/-- A shift right by a constant. -/
theorem shr_extends (hruns : Runs e start regs) {s : SourceOperand} {l : Literal} {signed : Bool}
    (hs : Reads e regs s l) (amount dstWidth : Nat) :
    ∃ regs', Extends e (e.binaryOp .shr dstWidth s signed (sizeLiteral amount) false).2 start regs
        regs' ∧
      Reads (e.binaryOp .shr dstWidth s signed (sizeLiteral amount) false).2 regs'
        (.register (e.binaryOp .shr dstWidth s signed (sizeLiteral amount) false).1)
        ⟨wordAt (l.denote signed) amount dstWidth, dstWidth⟩ := by
  have hliteral : Reads e regs (sizeLiteral amount) ⟨amount, 64⟩ := Reads.literal e regs _
  have hdef : BinaryOpType.shr.Defined (Literal.denote ⟨amount, 64⟩ false) := by
    rw [denote_false]
    exact Int.natCast_nonneg _
  obtain ⟨regs', hextends, hreads⟩ :=
    binaryOp_extends hruns dstWidth hs hliteral (s := signed) (t := false) hdef
  refine ⟨regs', hextends, ?_⟩
  rw [exactBinaryOp, denote_false, Int.toNat_natCast] at hreads
  exact hreads

/-- The choices of a multiplexer are read without sign extension. -/
theorem mux21_extends {e : Emission} {start regs : Nat → Nat} (hruns : Runs e start regs)
    {index s0 s1 : SourceOperand} {i x y w : Nat} (hindex : Reads e regs index ⟨i, 1⟩) (hi : i < 2)
    (h0 : Reads e regs s0 ⟨x, w⟩) (h1 : Reads e regs s1 ⟨y, w⟩) (hx : x < 2 ^ w) (hy : y < 2 ^ w) :
    ∃ regs', Extends e (e.mux21 w index s0 false s1 false).2 start regs regs' ∧
      Reads (e.mux21 w index s0 false s1 false).2 regs'
        (.register (e.mux21 w index s0 false s1 false).1) ⟨if i = 0 then x else y, w⟩ := by
  refine emit_extends hruns (.cons hindex (.cons h0 (.cons h1 .nil))) ?_
  have hmask : (((Operation.pushOperand { opcode := .select } index false).pushOperand s0
      false).pushOperand s1 false).signExtendSourceMask = 0 := rfl
  show combinationalResult .select _ _ _ = _
  rw [hmask]
  match i, hi with
  | 0, _ =>
      simp [combinationalResult, Literal.denote, Literal.negative, truncate_natCast_of_lt hx]
  | 1, _ =>
      simp [combinationalResult, Literal.denote, Literal.negative, truncate_natCast_of_lt hy]

/-- A bit followed by a word. -/
theorem concat_extends {e : Emission} {start regs : Nat → Nat} (hruns : Runs e start regs)
    {lsb word : SourceOperand} {c x w : Nat} (hlsb : Reads e regs lsb ⟨c, 1⟩) (hc : c < 2)
    (hword : Reads e regs word ⟨x, w⟩) (hx : x < 2 ^ w) :
    ∃ regs', Extends e (e.concat [lsb, word]).2 start regs regs' ∧
      Reads (e.concat [lsb, word]).2 regs' (.register (e.concat [lsb, word]).1)
        ⟨2 * x + c, w + 1⟩ := by
  have hwidth0 : lsb.width e.table = 1 := hlsb.width_eq
  have hwidth1 : word.width e.table = w := hword.width_eq
  have hconcat : e.concat [lsb, word]
      = e.emit { opcode := .gather [⟨0, 0, 1⟩, ⟨0, 1, w⟩], src := [lsb, word] } (1 + w) := by
    simp [concat, hwidth0, hwidth1]
  rw [hconcat, Nat.add_comm 1 w]
  refine emit_extends hruns (.cons hlsb (.cons hword .nil)) ?_
  have hpow : 2 ^ (w + 1) = 2 * 2 ^ w := by rw [Nat.pow_succ, Nat.mul_comm]
  have hbits : gatherBits [⟨0, 0, 1⟩, ⟨0, 1, w⟩] [⟨c, 1⟩, ⟨x, w⟩] = 2 * x + c := by
    have hx' : truncate (x : Nat) w = x := truncate_natCast_of_lt hx
    have hc' : truncate (c : Nat) 1 = c := truncate_natCast_of_lt (by omega)
    simp only [gatherBits, List.zip_cons_cons, List.zip_nil_right, List.foldl_cons, List.foldl_nil,
      Nat.shiftRight_zero, hx', hc', Nat.shiftLeft_zero, Nat.zero_or]
    rw [Nat.or_comm, ← Nat.shiftLeft_add_eq_or_of_lt (by omega), Nat.shiftLeft_eq]
    omega
  show combinationalResult (.gather _) _ _ _ = _
  rw [combinationalResult, hbits, truncate_natCast_of_lt (by omega)]

end Emission

end Kanagawa.IR
