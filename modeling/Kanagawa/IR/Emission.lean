/-
  Kanagawa.IR.Emission

  Emitted operations that write registers which exist already.

  `Emission.Extends` is about operations with registers of their own.  Code
  generation also moves results to registers that were allocated before, and a
  call may leave values in the registers of the callee.  `Emission.Writes` names
  the registers that may change; an operand of any other register keeps its value.
-/
import Kanagawa.IR.Combinational

namespace Kanagawa.IR.Emission

open Lib.Bits

/-! ## Operations -/

/-- `AllocateRegister` of a local register. -/
def allocate (e : Emission) (width : Nat) : Nat × Emission :=
  (e.table.length, ⟨e.table ++ [localRegister width], e.ops⟩)

/-- A `Mov` of one operand. -/
def movOperation (src : SourceOperand) (signExtend : Bool) : Operation :=
  Operation.pushOperand { opcode := .mov } src signExtend

/-- A `Mov` to a new register. -/
def mov (e : Emission) (dstWidth : Nat) (src : SourceOperand) (signExtend : Bool) :
    Nat × Emission :=
  e.emit (movOperation src signExtend) dstWidth

/-- A unary operation of one operand. -/
def unaryOperation (type : UnaryOpType) (src : SourceOperand) (signExtend : Bool) : Operation :=
  Operation.pushOperand { opcode := .unaryOp type } src signExtend

/-- A `Select` between two operands. -/
def mux21Operation (selectIndex src0 : SourceOperand) (signExtend0 : Bool) (src1 : SourceOperand)
    (signExtend1 : Bool) : Operation :=
  ((Operation.pushOperand { opcode := .select } selectIndex false).pushOperand src0
    signExtend0).pushOperand src1 signExtend1

/-! ## What is written -/

variable {e e' e'' : Emission} {start regs regs' regs'' : Nat → Nat} {written : Nat → Prop}

/-- The emission goes on from `e` to `e'`, and of the registers of `e` only those in
    `written` change. -/
structure Writes (e e' : Emission) (start regs regs' : Nat → Nat) (written : Nat → Prop) :
    Prop where
  grows : e.table <+: e'.table
  runs : Runs e' start regs'
  frame : ∀ r, r < e.table.length → ¬ written r → regs' r = regs r

theorem Extends.writes (h : Extends e e' start regs regs') (written : Nat → Prop) :
    Writes e e' start regs regs' written :=
  ⟨h.grows, h.runs, fun r hr _ => h.frame r hr⟩

theorem Writes.trans (h : Writes e e' start regs regs' written)
    (h' : Writes e' e'' start regs' regs'' written) : Writes e e'' start regs regs'' written := by
  refine ⟨h.grows.trans h'.grows, h'.runs, ?_⟩
  intro r hr hwritten
  rw [h'.frame r (Nat.lt_of_lt_of_le hr h.grows.length_le) hwritten, h.frame r hr hwritten]

theorem Writes.mono {written' : Nat → Prop} (h : Writes e e' start regs regs' written)
    (hsub : ∀ r, r < e.table.length → written r → written' r) :
    Writes e e' start regs regs' written' :=
  ⟨h.grows, h.runs, fun r hr hwritten => h.frame r hr fun hr' => hwritten (hsub r hr hr')⟩

/-- Registers allocated on the way may be written over. -/
theorem Extends.trans_writes (h : Extends e e' start regs regs')
    (h' : Writes e' e'' start regs' regs'' written) (hnew : ∀ r, r < e.table.length → ¬ written r)
    (written' : Nat → Prop) : Writes e e'' start regs regs'' written' := by
  refine ⟨h.grows.trans h'.grows, h'.runs, ?_⟩
  intro r hr _
  rw [h'.frame r (Nat.lt_of_lt_of_le hr h.grows.length_le) (hnew r hr), h.frame r hr]

/-- An operand keeps its value unless its register is written. -/
theorem Writes.keeps (h : Writes e e' start regs regs' written) {s : SourceOperand} {l : Literal}
    (hs : Reads e regs s l) (hwritten : ∀ r, s = .register r → ¬ written r) :
    Reads e' regs' s l := by
  cases s with
  | register r =>
      obtain ⟨hr, hwidth, hvalue⟩ := Reads.register_iff.mp hs
      apply Reads.register_iff.mpr
      refine ⟨Nat.lt_of_lt_of_le hr h.grows.length_le, ?_, ?_⟩
      · rw [desc_of_grow h.grows hr]
        exact hwidth
      · rw [h.frame r hr (hwritten r rfl)]
        exact hvalue
  | literal _ => exact ⟨nofun, hs.value⟩
  | fifo _ => exact ⟨nofun, hs.value⟩
  | stringLiteral _ => exact ⟨nofun, hs.value⟩

/-! ## The operations -/

theorem allocate_extends (hruns : Runs e start regs) (width : Nat) :
    Extends e (e.allocate width).2 start regs regs := by
  have hgrows : e.table <+: (e.allocate width).2.table := List.prefix_append _ _
  have hruns' : Runs (e.allocate width).2 start regs :=
    fun table hgrow => hruns table (hgrows.trans hgrow)
  have hwrites : Writes e (e.allocate width).2 start regs regs (fun _ => False) :=
    ⟨hgrows, hruns', fun _ _ _ => rfl⟩
  exact ⟨hgrows, hruns', fun hs => hwrites.keeps hs fun _ _ => not_false, fun _ _ => rfl⟩

theorem allocate_desc (e : Emission) (width : Nat) :
    (e.allocate width).1 < (e.allocate width).2.table.length ∧
      ((e.allocate width).2.table.desc (e.allocate width).1).width = width := by
  constructor
  · show e.table.length < (e.table ++ [_]).length
    simp
  · show (RegisterTable.desc (e.table ++ [localRegister width]) e.table.length).width = width
    rw [desc_append_self]
    rfl

/-- An operation that writes a register of the table. -/
theorem push_writes (hruns : Runs e start regs) {op : Operation} {r v : Nat}
    {literals : List Literal} (hr : r < e.table.length) (hdst : op.dst = [.register r])
    (hsrc : List.Forall₂ (Reads e regs) op.src literals)
    (hresult : combinationalResult op.opcode op.signExtendSourceMask (e.table.desc r).width
      literals = some v) :
    Writes e (e.push op) start regs (Function.update regs r v) (· = r) ∧
      Reads (e.push op) (Function.update regs r v) (.register r)
        ⟨v, (e.table.desc r).width⟩ := by
  refine ⟨⟨List.prefix_rfl, ?_, ?_⟩, ?_⟩
  · intro table hgrow
    have hgrow' : e.table <+: table := hgrow
    -- The operation reads and writes only registers of its own table
    show runCombinational table start (e.ops ++ [op]) = _
    rw [runCombinational_append, hruns table hgrow', Option.bind_some, runCombinational]
    simp only [List.foldlM_cons, List.foldlM_nil, execCombinational, Reads.mapM_eq hgrow' hsrc,
      hdst, desc_of_grow hgrow' hr, hresult, Option.bind_eq_bind, Option.bind_some,
      Option.pure_def]
  · intro r' _ hne
    exact Function.update_of_ne hne _ _
  · apply Reads.register_iff.mpr
    refine ⟨hr, rfl, ?_⟩
    rw [Function.update_self, Nat.mod_eq_of_lt (combinationalResult_lt hresult)]

theorem movOperation_mask (src : SourceOperand) (signExtend : Bool) :
    (movOperation src signExtend).signExtendSourceMask.testBit 0 = signExtend := by
  cases signExtend <;> simp [movOperation, Operation.pushOperand]

theorem mov_extends (hruns : Runs e start regs) {s : SourceOperand} {l : Literal}
    (hs : Reads e regs s l) (dstWidth : Nat) (signed : Bool) :
    ∃ regs', Extends e (e.mov dstWidth s signed).2 start regs regs' ∧
      Reads (e.mov dstWidth s signed).2 regs' (.register (e.mov dstWidth s signed).1)
        ⟨truncate (l.denote signed) dstWidth, dstWidth⟩ := by
  refine emit_extends hruns (.cons hs .nil) ?_
  show combinationalResult .mov _ _ _ = _
  rw [combinationalResult, movOperation_mask]

/-- A `Mov` to a register of the table. -/
theorem mov_writes (hruns : Runs e start regs) {s : SourceOperand} {l : Literal} {r : Nat}
    (hr : r < e.table.length) (hs : Reads e regs s l) (signed : Bool) :
    Writes e (e.push { movOperation s signed with dst := [.register r] }) start regs
        (Function.update regs r (truncate (l.denote signed) (e.table.desc r).width)) (· = r) ∧
      Reads (e.push { movOperation s signed with dst := [.register r] })
        (Function.update regs r (truncate (l.denote signed) (e.table.desc r).width)) (.register r)
        ⟨truncate (l.denote signed) (e.table.desc r).width, (e.table.desc r).width⟩ := by
  apply push_writes hruns hr rfl (.cons hs .nil)
  show combinationalResult .mov _ _ _ = _
  rw [combinationalResult]
  show some (truncate (l.denote ((movOperation s signed).signExtendSourceMask.testBit 0)) _) = _
  rw [movOperation_mask]

/-- A binary operation whose result goes to a register of the table. -/
theorem binaryOp_writes (hruns : Runs e start regs) {opType : BinaryOpType} {a b : SourceOperand}
    {s t : Bool} {x y : Literal} {r : Nat} (hr : r < e.table.length) (ha : Reads e regs a x)
    (hb : Reads e regs b y) (hdef : opType.Defined (y.denote t)) :
    ∃ regs', Writes e (e.push { binaryOperation opType a s b t with dst := [.register r] }) start
        regs regs' (· = r) ∧
      Reads (e.push { binaryOperation opType a s b t with dst := [.register r] }) regs'
        (.register r)
        ⟨truncate (exactBinaryOp opType (x.denote s) (y.denote t)) (e.table.desc r).width,
          (e.table.desc r).width⟩ := by
  refine ⟨_, push_writes hruns hr rfl (.cons ha (.cons hb .nil)) ?_⟩
  obtain ⟨h0, h1⟩ := pushOperand_mask (.binaryOp opType) a b s t
  show combinationalResult (.binaryOp opType)
    (binaryOperation opType a s b t).signExtendSourceMask _ _ = _
  rw [combinationalResult, binaryOperation, h0, h1, if_pos hdef]

/-- A shift left by a constant. -/
theorem shl_extends (hruns : Runs e start regs) {s : SourceOperand} {l : Literal}
    (hs : Reads e regs s l) (signed : Bool) (amount dstWidth : Nat) :
    ∃ regs', Extends e (e.binaryOp .shl dstWidth s signed (sizeLiteral amount) false).2 start regs
        regs' ∧
      Reads (e.binaryOp .shl dstWidth s signed (sizeLiteral amount) false).2 regs'
        (.register (e.binaryOp .shl dstWidth s signed (sizeLiteral amount) false).1)
        ⟨truncate (l.denote signed * 2 ^ amount) dstWidth, dstWidth⟩ := by
  have hliteral : Reads e regs (sizeLiteral amount) ⟨amount, 64⟩ := Reads.literal e regs _
  have hdef : BinaryOpType.shl.Defined (Literal.denote ⟨amount, 64⟩ false) := by
    rw [denote_false]
    exact Int.natCast_nonneg _
  obtain ⟨regs', hextends, hreads⟩ :=
    binaryOp_extends hruns dstWidth hs hliteral (s := signed) (t := false) hdef
  refine ⟨regs', hextends, ?_⟩
  rw [exactBinaryOp, denote_false, Int.toNat_natCast] at hreads
  exact hreads

theorem unaryOperation_mask (type : UnaryOpType) (src : SourceOperand) (signExtend : Bool) :
    (unaryOperation type src signExtend).signExtendSourceMask.testBit 0 = signExtend := by
  cases signExtend <;> simp [unaryOperation, Operation.pushOperand]

theorem unaryOp_extends (hruns : Runs e start regs) (type : UnaryOpType) {s : SourceOperand}
    {l : Literal} (hs : Reads e regs s l) (signed : Bool) (dstWidth : Nat) :
    ∃ regs', Extends e (e.emit (unaryOperation type s signed) dstWidth).2 start regs regs' ∧
      Reads (e.emit (unaryOperation type s signed) dstWidth).2 regs'
        (.register (e.emit (unaryOperation type s signed) dstWidth).1)
        ⟨truncate (exactUnaryOp type (l.denote signed)) dstWidth, dstWidth⟩ := by
  refine emit_extends hruns (.cons hs .nil) ?_
  show combinationalResult (.unaryOp type) _ _ _ = _
  rw [combinationalResult, unaryOperation_mask]

/-- A unary operation whose result goes to a register of the table. -/
theorem unaryOp_writes (hruns : Runs e start regs) (type : UnaryOpType) {s : SourceOperand}
    {l : Literal} {r : Nat} (hr : r < e.table.length) (hs : Reads e regs s l) (signed : Bool) :
    ∃ regs', Writes e (e.push { unaryOperation type s signed with dst := [.register r] }) start
        regs regs' (· = r) ∧
      Reads (e.push { unaryOperation type s signed with dst := [.register r] }) regs'
        (.register r)
        ⟨truncate (exactUnaryOp type (l.denote signed)) (e.table.desc r).width,
          (e.table.desc r).width⟩ := by
  refine ⟨_, push_writes hruns hr rfl (.cons hs .nil) ?_⟩
  show combinationalResult (.unaryOp type)
    (unaryOperation type s signed).signExtendSourceMask _ _ = _
  rw [combinationalResult, unaryOperation_mask]

/-- The choice of a multiplexer, sign-extended if its flag is set. -/
theorem mux21_result (index s0 s1 : SourceOperand) (t0 t1 : Bool) {i : Nat} (hi : i < 2)
    (x y : Literal) (dstWidth : Nat) :
    combinationalResult .select (mux21Operation index s0 t0 s1 t1).signExtendSourceMask dstWidth
      [⟨i, 1⟩, x, y] = some (truncate (if i = 0 then x.denote t0 else y.denote t1) dstWidth) := by
  have hmask : (mux21Operation index s0 t0 s1 t1).signExtendSourceMask.testBit 1 = t0 ∧
      (mux21Operation index s0 t0 s1 t1).signExtendSourceMask.testBit 2 = t1 := by
    cases t0 <;> cases t1 <;> simp [mux21Operation, Operation.pushOperand] <;> decide
  rcases (by omega : i = 0 ∨ i = 1) with rfl | rfl
  · show some (truncate (x.denote (Nat.testBit _ 1)) dstWidth) = _
    rw [hmask.1, if_pos rfl]
  · show some (truncate (y.denote (Nat.testBit _ 2)) dstWidth) = _
    rw [hmask.2, if_neg Nat.one_ne_zero]

/-- A multiplexer whose result goes to a register of the table. -/
theorem mux21_writes (hruns : Runs e start regs) {index s0 s1 : SourceOperand} {i r : Nat}
    {x y : Literal} (hr : r < e.table.length) (hindex : Reads e regs index ⟨i, 1⟩) (hi : i < 2)
    (h0 : Reads e regs s0 x) (h1 : Reads e regs s1 y) (t0 t1 : Bool) :
    ∃ regs', Writes e (e.push { mux21Operation index s0 t0 s1 t1 with dst := [.register r] }) start
        regs regs' (· = r) ∧
      Reads (e.push { mux21Operation index s0 t0 s1 t1 with dst := [.register r] }) regs'
        (.register r)
        ⟨truncate (if i = 0 then x.denote t0 else y.denote t1) (e.table.desc r).width,
          (e.table.desc r).width⟩ :=
  ⟨_, push_writes hruns hr rfl (.cons hindex (.cons h0 (.cons h1 .nil)))
    (mux21_result index s0 s1 t0 t1 hi x y _)⟩

/-- A multiplexer whose choices may be sign-extended. -/
theorem mux21_signed_extends (hruns : Runs e start regs) {index s0 s1 : SourceOperand} {i : Nat}
    {x y : Literal} (hindex : Reads e regs index ⟨i, 1⟩) (hi : i < 2) (h0 : Reads e regs s0 x)
    (h1 : Reads e regs s1 y) (t0 t1 : Bool) (dstWidth : Nat) :
    ∃ regs', Extends e (e.mux21 dstWidth index s0 t0 s1 t1).2 start regs regs' ∧
      Reads (e.mux21 dstWidth index s0 t0 s1 t1).2 regs'
        (.register (e.mux21 dstWidth index s0 t0 s1 t1).1)
        ⟨truncate (if i = 0 then x.denote t0 else y.denote t1) dstWidth, dstWidth⟩ :=
  emit_extends hruns (.cons hindex (.cons h0 (.cons h1 .nil)))
    (mux21_result index s0 s1 t0 t1 hi x y dstWidth)

end Kanagawa.IR.Emission
