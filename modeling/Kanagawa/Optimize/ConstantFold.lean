/-
  Kanagawa.Optimize.ConstantFold

  What `ConstantPropagation` does to one operation: with known values that are right,
  the operation that is left has the effect of the one it replaces, and the values
  known behind it are right again.
-/
import Kanagawa.Arith.Exact
import Kanagawa.Optimize.ConstantPropagation
import Kanagawa.Optimize.Renamed

namespace Kanagawa.Optimize

open IR Lib Lib.Except Lib.NatMap

variable {table : RegisterTable} {registerValues : RegisterValueMap} {op : Operation}

/-! ## Well-formed operations -/

/-- The number of source operands of an operation that can be folded. -/
def foldedArity : Opcode → Option Nat
  | .mov => some 1
  | .clear => some 0
  | .unaryOp _ => some 1
  | .binaryOp _ => some 2
  | .gather entries => some entries.length
  | _ => none

/-- An operation as the pass finds it.  Only `Enqueue` has a successor; operations that can
    be folded have their number of sources, and write local registers if they write a
    register that is no global; a lookup table writes a local register. -/
structure OperationShape (table : RegisterTable) (op : Operation) : Prop where
  successor : op.isEnqueue = false → op.successorBlock = none
  arity : ∀ n, foldedArity op.opcode = some n → op.src.length = n
  destination : ∀ n r, foldedArity op.opcode = some n → op.dst = [.register r] →
    (table.desc r).type ≠ .global → isLocalVariable table r
  gather : ∀ entries i, op.opcode = .gather entries → op.shouldSignExtend i = false
  lut : ∀ entries, op.opcode = .lut entries → LutShape table op.src entries ∧
    (∀ srcOp ∈ op.src, (∃ r, srcOp = .register r) ∨ ∃ l, srcOp = .literal l) ∧
    ∃ r, op.dst = [.register r] ∧ isLocalVariable table r

/-- A known value has the width of its register, and fits it. -/
structure TypedValue (table : RegisterTable) (r : Nat) (v : Literal) : Prop where
  isLocal : isLocalVariable table r
  width : v.width = (table.desc r).width
  fits : v.value < 2 ^ (table.desc r).width

def TypedValues (table : RegisterTable) (registerValues : RegisterValueMap) : Prop :=
  ∀ (r : Nat) (v : Literal), registerValues[r]? = some v → TypedValue table r v

/-- Constant globals always have their initial value. -/
def ReadsConstants {W : Type} (m : Machine W) (table : RegisterTable) : Prop :=
  ∀ world r v, constantGlobal table r = some v →
    m.readRegister world r % 2 ^ (table.desc r).width = v.value

/-- The registers have the values that are known. -/
def Holds (table : RegisterTable) (registerValues : RegisterValueMap) (locals : Nat → Nat) : Prop :=
  ∀ (r : Nat) (v : Literal), registerValues[r]? = some v →
    locals r % 2 ^ (table.desc r).width = v.value

/-! ## Source operands -/

/-- The operand stays, or becomes a literal of its value. -/
inductive ReplacedSource (table : RegisterTable) (registerValues : RegisterValueMap) :
    SourceOperand → SourceOperand → Prop
  | same (srcOp : SourceOperand) : ReplacedSource table registerValues srcOp srcOp
  | literal {r : Nat} {v : Literal} (h : sourceValue table registerValues r = some v) :
      ReplacedSource table registerValues (.register r) (.literal v)

/-- What the loop over the source operands makes of an operation. -/
structure Scanned (table : RegisterTable) (registerValues : RegisterValueMap)
    (op op' : Operation) : Prop where
  same : op' = { op with opcode := op'.opcode, src := op'.src }
  opcode : (∀ entries, op.opcode ≠ .lut entries) → op'.opcode = op.opcode
  sources : List.Forall₂ (ReplacedSource table registerValues) op.src op'.src
  lut : ∀ entries, op.opcode = .lut entries → ∃ entries', op'.opcode = .lut entries' ∧
    LutShape table op'.src entries' ∧ ∀ values, AgreesWithLiterals op'.src values →
      lutBits entries' values = lutBits entries values

theorem constantGlobal_width {r : Nat} {v : Literal} (h : constantGlobal table r = some v) :
    v.width = (table.desc r).width := by
  unfold constantGlobal at h
  dsimp only at h
  split at h
  · obtain ⟨value, -, rfl⟩ := Option.map_eq_some_iff.mp h
    rfl
  · exact nomatch h

theorem constantGlobal_not_local {r : Nat} {v : Literal} (h : constantGlobal table r = some v) :
    table.isLocal r = false := by
  unfold constantGlobal at h
  dsimp only at h
  split at h
  next hglobal =>
    rw [RegisterTable.isLocal, hglobal.1]
    rfl
  next => cases h

theorem sourceValue_width (htyped : TypedValues table registerValues) {r : Nat} {v : Literal}
    (h : sourceValue table registerValues r = some v) : v.width = (table.desc r).width := by
  unfold sourceValue at h
  split at h
  next value hvalue => exact Option.some.inj h ▸ (htyped r value hvalue).width
  next => exact constantGlobal_width h

section

variable {W : Type} {m : Machine W} {σ : State W}

/-- A register whose value is known reads as the literal. -/
theorem evalSource_of_sourceValue (hm : ReadsConstants m table)
    (htyped : TypedValues table registerValues)
    (hholds : Holds table registerValues σ.locals) {r : Nat} {v : Literal}
    (h : sourceValue table registerValues r = some v) :
    evalSource m table σ (.register r) = .bits v.value v.width := by
  have hwidth := sourceValue_width htyped h
  unfold sourceValue at h
  split at h
  next value hvalue =>
    have hlocal := isLocal_of_isLocalVariable (htyped r value hvalue).isLocal
    rw [← Option.some.inj h] at hwidth ⊢
    rw [evalSource, hlocal, hwidth]
    rw [if_pos rfl, hholds r value hvalue]
  next =>
    rw [evalSource, constantGlobal_not_local h, hwidth]
    rw [if_neg Bool.false_ne_true, hm _ r v h]

theorem ReplacedSource.evalSource (hm : ReadsConstants m table)
    (htyped : TypedValues table registerValues)
    (hholds : Holds table registerValues σ.locals) {srcOp srcOp' : SourceOperand}
    (h : ReplacedSource table registerValues srcOp srcOp') :
    evalSource m table σ srcOp' = evalSource m table σ srcOp := by
  cases h with
  | same => rfl
  | literal h => rw [evalSource_of_sourceValue hm htyped hholds h, IR.evalSource]

theorem Scanned.evalSources (hm : ReadsConstants m table)
    (htyped : TypedValues table registerValues)
    (hholds : Holds table registerValues σ.locals) {op' : Operation}
    (h : Scanned table registerValues op op') :
    evalSources m table σ op' = evalSources m table σ op := by
  unfold IR.evalSources
  have hsources := h.sources
  generalize op.src = src, op'.src = src' at hsources
  induction hsources with
  | nil => rfl
  | cons hsrc _ ih => rw [List.map_cons, List.map_cons, hsrc.evalSource hm htyped hholds, ih]

end

theorem Scanned.refl (hshape : OperationShape table op) : Scanned table registerValues op op := by
  refine ⟨rfl, fun _ => rfl, ?_, fun entries hop => ?_⟩
  · exact List.forall₂_same.mpr fun srcOp _ => .same srcOp
  · exact ⟨entries, hop, (hshape.lut entries hop).1, fun _ _ => rfl⟩

theorem forall₂_set {α β : Type} {R : α → β → Prop} {l : List α} {l' : List β}
    (h : List.Forall₂ R l l') {i : Nat} {b : β} (hb : ∀ a, l[i]? = some a → R a b) :
    List.Forall₂ R l (l'.set i b) := by
  induction h generalizing i with
  | nil => exact .nil
  | cons hR hrest ih =>
      cases i with
      | zero => exact .cons (hb _ rfl) hrest
      | succ i => exact .cons hR (ih fun a ha => hb a ha)

/-- Replacing one more operand. -/
theorem Scanned.replace (htyped : TypedValues table registerValues) {op' : Operation}
    (h : Scanned table registerValues op op') {i r : Nat} {v : Literal}
    (hsrc : op.src[i]? = some (.register r)) (hsrc' : op'.src[i]? = some (.register r))
    (hv : sourceValue table registerValues r = some v) :
    ∃ op'', replaceByLiteral op' i v = .ok op'' ∧ Scanned table registerValues op op'' ∧
      op''.src = op'.src.set i (.literal v) := by
  have hsources : List.Forall₂ (ReplacedSource table registerValues) op.src
      (op'.src.set i (.literal v)) := by
    refine forall₂_set h.sources fun srcOp hat => ?_
    rw [hsrc] at hat
    rw [← Option.some.inj hat]
    exact .literal hv
  have hlt : i < op'.src.length := (List.getElem?_eq_some_iff.mp hsrc').1
  unfold replaceByLiteral
  dsimp only
  split
  next entries hop' =>
    -- The entries that looked at the operand are replaced as well
    obtain ⟨entries₀, hop⟩ : ∃ entries₀, op.opcode = .lut entries₀ := by
      by_contra hnone
      push Not at hnone
      exact hnone entries (by rw [← h.opcode hnone, hop'])
    obtain ⟨entries', hentries', hlut, hbits⟩ := h.lut entries₀ hop
    rw [hop', Opcode.lut.injEq] at hentries'
    subst hentries'
    have hlut' : LutShape table (op'.src.set i (.literal v)) entries := by
      intro entry hentry
      obtain ⟨hlength, hshape⟩ := hlut entry hentry
      refine ⟨hlength, fun source hs => ?_⟩
      by_cases hi : source.1 = i
      · have hat : (op'.src.set i (.literal v))[source.1]? = some (.literal v) := by
          rw [hi, List.getElem?_set_self hlt]
        have hwidth := sourceValue_width htyped hv
        rcases hshape source hs with ⟨l, hl, -, -⟩ | ⟨r', hr', hbit, hle⟩
        · rw [hi, hsrc'] at hl
          exact nomatch hl
        · rw [hi, hsrc', Option.some.injEq, SourceOperand.register.injEq] at hr'
          exact .literal v hat (by rw [hwidth, hr']; exact hbit) (by rw [hwidth, hr']; exact hle)
      · have hat : (op'.src.set i (.literal v))[source.1]? = op'.src[source.1]? :=
          List.getElem?_set_ne fun heq => hi heq.symm
        rcases hshape source hs with ⟨l, hl, hbit, hle⟩ | ⟨r', hr', hbit, hle⟩
        · exact .literal l (hat.trans hl) hbit hle
        · exact .register r' (hat.trans hr') hbit hle
    obtain ⟨entries'', hok, hlut'', hbits''⟩ :=
      @fixupLutOp_spec _ { op' with src := op'.src.set i (.literal v) } _ hop' hlut'
    rw [hok]
    refine ⟨_, rfl, ⟨?_, fun hne => absurd hop (hne entries₀), hsources, fun entries₁ hop₁ => ?_⟩,
      rfl⟩
    · rw [h.same]
    · rw [hop, Opcode.lut.injEq] at hop₁
      subst hop₁
      refine ⟨entries'', rfl, hlut'', fun values hagree => ?_⟩
      rw [hbits'' values hagree, hbits values fun j l hl => hagree j l ?_]
      have hne : i ≠ j := by
        rintro rfl
        rw [hsrc'] at hl
        exact nomatch hl
      exact (List.getElem?_set_ne hne).trans hl
  next hne' =>
    have hne : ∀ entries, op.opcode ≠ .lut entries := by
      intro entries hop
      obtain ⟨entries', hop', -, -⟩ := h.lut entries hop
      exact hne' entries' hop'
    refine ⟨_, rfl, ⟨?_, fun _ => h.opcode hne, hsources, fun entries hop => absurd hop (hne entries)⟩,
      rfl⟩
    rw [h.same]

/-! ## Folding -/

theorem resize_lt {l : Literal} {s : Bool} {w v : Nat} (h : resize l s w = .ok v) : v < 2 ^ w := by
  unfold resize at h
  rw [bind_eq_ok_iff] at h
  obtain ⟨_, -, h⟩ := h
  exact Except.ok.inj h ▸ truncate_lt _ _

end Kanagawa.Optimize
