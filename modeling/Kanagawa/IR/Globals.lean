/-
  Kanagawa.IR.Globals

  A machine with global registers.

  The world has the values of the registers that are not local apart from the
  rest.  `WriteGlobal` assigns one of them, `Select` picks one of its sources,
  and the marks of atomic blocks do nothing.  An operation whose predicate is
  zero has no effect, and one that only computes has none either; what other
  operations do to the rest of the world is left open.
-/
import Kanagawa.Arith.Exact
import Kanagawa.IR.Semantics

namespace Kanagawa.IR

/-! ## The machine -/

/-- The values of the registers that are not local, and the rest of the world. -/
abbrev Globals (W : Type) := (Nat → Nat) × W

/-- What the operations on the rest of the world do. -/
structure Surroundings (W : Type) where
  readFifo : Globals W → FifoSubset → Nat
  exec : OpInfo → List Value → Globals W → List Nat × W

/-- Operations that only compute their destinations. -/
def Opcode.onlyComputes : Opcode → Bool
  | .mov | .clear | .unaryOp _ | .binaryOp _ | .select | .gather _ | .lut _ => true
  | _ => false

/-- Which source operand of an operation is its predicate.  The first bit of the tag of
    a `StoreMemory` is its `_isPredicated`. -/
def OpInfo.predicateOperand (info : OpInfo) : Option Nat :=
  match info.opcode with
  | .writeGlobal true => some 1
  | .storeMemory => if info.tag.testBit 0 then some 1 else none
  | .enqueue true => some 0
  | .referenceString | .formatString | .formatEnum | .inlineExternalModule _ => some 0
  | _ => none

/-- Whether the predicate of an operation is zero. -/
def OpInfo.predicatedOff (info : OpInfo) (values : List Value) : Bool :=
  match info.predicateOperand with
  | some k =>
      match values[k]? with
      | some (.bits predicate _) => predicate == 0
      | _ => false
  | none => false

/-- The value `WriteGlobal` gives a register. -/
def writtenValue (table : RegisterTable) (mask r : Nat) (source : Literal) : Nat :=
  (resize source (mask.testBit 0) (table.desc r).width).toOption.getD 0

/-- The choice of `Select`: the index has as many bits as it needs. -/
def selectedValue (mask dstWidth index : Nat) (choices : List Value) : Option Nat := do
  let chosen := index % 2 ^ choices.length.log2
  let value ← choices[chosen]?.bind Value.literal?
  (resize value (mask.testBit (chosen + 1)) dstWidth).toOption

section

variable {W : Type} (table : RegisterTable) (other : Surroundings W)

/-- Global registers and what surrounds them. -/
def globalMachine : Machine (Globals W) where
  readRegister world r := world.1 r
  readFifo := other.readFifo
  exec info values world :=
    if info.predicatedOff values then ([], world)
    else
      match info.opcode, info.targets, values with
      | .writeGlobal _, [.external r], .bits value width :: _ =>
          ([], Function.update world.1 r
            (writtenValue table info.signExtendSourceMask r ⟨value, width⟩), world.2)
      | .select, [.local dstWidth], .bits index _ :: choices =>
          ((selectedValue info.signExtendSourceMask dstWidth index choices).toList, world)
      | .beginAtomic _, _, _ | .endAtomic _, _, _ => ([], world)
      | opcode, _, _ =>
          let outcome := other.exec info values world
          if opcode.onlyComputes then (outcome.1, world)
          else (outcome.1, world.1, outcome.2)
  tick world := world

end

/-! ## Unsigned arithmetic -/

section Arithmetic

variable {a b wa wb d : Nat}

theorem widen_unsigned (ha : 0 < wa) : widen ⟨a, wa⟩ false d = .ok a := by
  have hassert : assert (decide (0 < wa)) = .ok () := assert_of_true (decide_eq_true ha)
  simp only [widen, hassert]
  rfl

theorem resize_unsigned (ha : 0 < wa) : resize ⟨a, wa⟩ false d = .ok (a % 2 ^ d) := by
  simp only [resize, widen_unsigned ha]
  exact congrArg Except.ok (truncate_natCast a d)

/-- The result of an unsigned operation other than a shift. -/
theorem implementBinaryOp_unsigned {type : BinaryOpType} {result : Nat} (ha : 0 < wa)
    (hb : 0 < wb) (hd : 0 < d) (hshr : type ≠ .shr)
    (hresult : binaryOpResult ⟨a, wa⟩ ⟨b, wb⟩ d a b true true type = .ok (result : Int)) :
    implementBinaryOp ⟨a, wa⟩ ⟨b, wb⟩ d false false type = .ok (result % 2 ^ d) := by
  obtain ⟨req, hreq⟩ : ∃ req, requiredSourceWidth ⟨a, wa⟩ ⟨b, wb⟩ d type = .ok req := by
    cases type with
    | shr => exact absurd rfl hshr
    | _ => exact ⟨_, rfl⟩
  simp only [implementBinaryOp, assert_of_true (decide_eq_true ha),
    assert_of_true (decide_eq_true hb), assert_of_true (decide_eq_true hd), hreq,
    widen_unsigned ha, widen_unsigned hb, sourcePositive]
  change (do
    let result ← binaryOpResult ⟨a, wa⟩ ⟨b, wb⟩ d a b true true type
    pure (truncate result d)) = _
  rw [hresult]
  exact congrArg Except.ok (truncate_natCast result d)

end Arithmetic

/-! ## Executing one operation -/

section Exec

variable {W : Type} (table : RegisterTable) (other : Surroundings W)
  (σ : State (Globals W))

/-- The value of a register: a thread's own if it is local. -/
def registerValue (r : Nat) : Nat :=
  (if table.isLocal r then σ.locals r else σ.world.1 r) % 2 ^ (table.desc r).width

/-- An operation on unsigned operands with one destination register. -/
def unsignedOperation (opcode : Opcode) (src : List SourceOperand) (dst : Nat) : Operation :=
  { opcode, src, dst := [.register dst] }

/-- The value of a register or literal operand. -/
def sourceLiteral : SourceOperand → Option Literal
  | .literal l => some l
  | .register r => some ⟨registerValue table σ r, (table.desc r).width⟩
  | _ => none

variable {table σ} {r t : Nat}

theorem literal?_evalSource {src : SourceOperand} {l : Literal}
    (h : sourceLiteral table σ src = some l) :
    (evalSource (globalMachine table other) table σ src).literal? = some l := by
  cases src with
  | literal l' => exact h
  | register r => exact h
  | fifo f => cases h
  | stringLiteral s => cases h

theorem mapM_literal?_evalSources (opcode : Opcode) (t : Nat) {src : List SourceOperand}
    {sources : List Literal} (h : src.mapM (sourceLiteral table σ) = some sources) :
    (evalSources (globalMachine table other) table σ (unsignedOperation opcode src t)).mapM
      Value.literal? = some sources := by
  change (src.map (evalSource (globalMachine table other) table σ)).mapM Value.literal? = _
  induction src generalizing sources with
  | nil => exact h
  | cons s src ih =>
    simp only [List.mapM_cons] at h
    obtain ⟨l, hl, h⟩ := Option.bind_eq_some_iff.mp h
    obtain ⟨ls, hls, h⟩ := Option.bind_eq_some_iff.mp h
    simp only [List.map_cons, List.mapM_cons, literal?_evalSource other hl, ih hls]
    exact h

/-- An operation that only computes assigns its local destination. -/
theorem execOperation_pure {opcode : Opcode} {src : List SourceOperand}
    (sources : List Literal) {result : Nat} (ht : table.isLocal t = true)
    (hsrc : src.mapM (sourceLiteral table σ) = some sources)
    (hresult : pureResult opcode 0 (table.desc t).width sources = some result) :
    execOperation (globalMachine table other) table σ (unsignedOperation opcode src t) =
      ⟨Function.update σ.locals t (result % 2 ^ (table.desc t).width), σ.world⟩ := by
  have hpure : ((unsignedOperation opcode src t).info table).pureResult?
      (evalSources (globalMachine table other) table σ (unsignedOperation opcode src t)) =
        some result := by
    simp only [OpInfo.pureResult?, Operation.info, unsignedOperation, List.map_cons, List.map_nil,
      target, ht, if_true]
    rw [show evalSources (globalMachine table other) table σ
        ⟨opcode, 0, src, [.register t], 0, none, ∅, ∅⟩ =
      evalSources (globalMachine table other) table σ (unsignedOperation opcode src t) from rfl,
      mapM_literal?_evalSources other opcode t hsrc]
    exact hresult
  simp only [execOperation, Machine.run, hpure]
  simp only [unsignedOperation, writeDestinations, ht, if_true, List.headD_cons]
  rfl

theorem execOperation_mov {src : SourceOperand} (l : Literal) (ht : table.isLocal t = true)
    (hsrc : sourceLiteral table σ src = some l) (hl : 0 < l.width) :
    execOperation (globalMachine table other) table σ (unsignedOperation .mov [src] t) =
      ⟨Function.update σ.locals t (l.value % 2 ^ (table.desc t).width), σ.world⟩ := by
  have hsources : [src].mapM (sourceLiteral table σ) = some [l] := by
    simp only [List.mapM_cons, hsrc, List.mapM_nil]
    rfl
  have hresult : pureResult .mov 0 (table.desc t).width [l] =
      some (l.value % 2 ^ (table.desc t).width) := by
    simp only [pureResult, Nat.zero_testBit, resize_unsigned hl]
    rfl
  rw [execOperation_pure other [l] ht hsources hresult, Nat.mod_mod]

theorem execOperation_binaryOp {type : BinaryOpType} {src0 src1 : SourceOperand}
    (l0 l1 : Literal) {result : Nat} (ht : table.isLocal t = true)
    (hd : 0 < (table.desc t).width) (hsrc0 : sourceLiteral table σ src0 = some l0)
    (hsrc1 : sourceLiteral table σ src1 = some l1) (h0 : 0 < l0.width) (h1 : 0 < l1.width)
    (hshr : type ≠ .shr)
    (hresult : binaryOpResult l0 l1 (table.desc t).width l0.value l1.value true true type =
      .ok (result : Int)) :
    execOperation (globalMachine table other) table σ
        (unsignedOperation (.binaryOp type) [src0, src1] t) =
      ⟨Function.update σ.locals t (result % 2 ^ (table.desc t).width), σ.world⟩ := by
  have hsources : [src0, src1].mapM (sourceLiteral table σ) = some [l0, l1] := by
    simp only [List.mapM_cons, hsrc0, hsrc1, List.mapM_nil]
    rfl
  have hpure : pureResult (.binaryOp type) 0 (table.desc t).width [l0, l1] =
      some (result % 2 ^ (table.desc t).width) := by
    simp only [pureResult, Nat.zero_testBit, implementBinaryOp_unsigned h0 h1 hd hshr hresult]
    rfl
  rw [execOperation_pure other [l0, l1] ht hsources hpure, Nat.mod_mod]

theorem execOperation_writeGlobal (hr : table.isLocal r = false)
    {src : SourceOperand} (l : Literal) (hsrc : sourceLiteral table σ src = some l)
    (hl : 0 < l.width) :
    execOperation (globalMachine table other) table σ
        (unsignedOperation (.writeGlobal false) [src] r) =
      ⟨σ.locals, Function.update σ.world.1 r (l.value % 2 ^ (table.desc r).width),
        σ.world.2⟩ := by
  have hvalue : evalSource (globalMachine table other) table σ src = .bits l.value l.width := by
    have hlit := literal?_evalSource other hsrc
    cases hev : evalSource (globalMachine table other) table σ src with
    | bits value width =>
      rw [hev] at hlit
      cases hlit
      rfl
    | text s =>
      rw [hev] at hlit
      cases hlit
  have hwritten : writtenValue table 0 r l = l.value % 2 ^ (table.desc r).width := by
    simp only [writtenValue, Nat.zero_testBit, resize_unsigned hl]
    rfl
  have hinfo : (unsignedOperation (.writeGlobal false) [src] r).info table =
      ⟨.writeGlobal false, 0, 0, [.external r]⟩ := by
    simp only [Operation.info, unsignedOperation, List.map_cons, List.map_nil, target, hr,
      Bool.false_eq_true, if_false]
  have hsources : evalSources (globalMachine table other) table σ
      (unsignedOperation (.writeGlobal false) [src] r) = [.bits l.value l.width] := by
    simp only [evalSources, unsignedOperation, List.map_cons, List.map_nil, hvalue]
  simp only [execOperation, hinfo, hsources]
  rw [← hwritten]
  simp only [unsignedOperation, writeDestinations, hr, Bool.false_eq_true, if_false]
  rfl

theorem execOperation_beginAtomic (desc : AtomicBlockDesc) :
    execOperation (globalMachine table other) table σ { opcode := .beginAtomic desc } = σ := rfl

theorem execOperation_endAtomic (desc : AtomicBlockDesc) :
    execOperation (globalMachine table other) table σ { opcode := .endAtomic desc } = σ := rfl

end Exec

end Kanagawa.IR
