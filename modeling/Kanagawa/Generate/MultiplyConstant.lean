/-
  Kanagawa.Generate.MultiplyConstant

  Multiplication by a known value is exact.

  An intermediate register need not be as wide as the result; what matters is that
  it holds the right integer modulo two to the width of the result, which `Holds`
  says.  The adder tree then keeps the sum.  The known value is the sum of its bits,
  each with its weight, the top bit of a signed value with a negative one; the loop
  has added the terms of the bits below its index.
-/
import Kanagawa.Generate.Multiply

namespace Kanagawa.Generate

open IR IR.Emission Lib.Bits

variable {e : Emission} {start regs : Nat → Nat}

/-! ## Registers that hold an integer modulo a power of two -/

/-- The bits of a register are those of an integer, modulo two to the width `w`. -/
def Holds (e : Emission) (regs : Nat → Nat) (w r : Nat) (z : Int) : Prop :=
  ∃ l : Literal, Reads e regs (.register r) l ∧ (l.value : Int) ≡ z [ZMOD 2 ^ w]

theorem Holds.extends {e' : Emission} {regs' : Nat → Nat} {w r : Nat} {z : Int}
    (h : Holds e regs w r z) (hextends : Extends e e' start regs regs') :
    Holds e' regs' w r z := by
  obtain ⟨l, hreads, hvalue⟩ := h
  exact ⟨l, hextends.keeps hreads, hvalue⟩

theorem holds_all_extends {e' : Emission} {regs' : Nat → Nat} {w : Nat} {registers : List Nat}
    {values : List Int} (h : List.Forall₂ (Holds e regs w) registers values)
    (hextends : Extends e e' start regs regs') :
    List.Forall₂ (Holds e' regs' w) registers values :=
  h.imp fun _ _ hholds => hholds.extends hextends

theorem truncate_modEq (x : Int) (w : Nat) : (truncate x w : Int) ≡ x [ZMOD 2 ^ w] := by
  rw [natCast_truncate]
  exact Int.mod_modEq x _

/-- A register as wide as the result holds the integer whose truncation it has. -/
theorem Holds.of_reads {w r : Nat} {x z : Int}
    (h : Reads e regs (.register r) ⟨truncate x w, w⟩) (hz : x ≡ z [ZMOD 2 ^ w]) :
    Holds e regs w r z :=
  ⟨_, h, (truncate_modEq x w).trans hz⟩

/-! ## The adder tree -/

theorem add_extends (hruns : Runs e start regs) {w r r' : Nat} {z z' : Int}
    (h : Holds e regs w r z) (h' : Holds e regs w r' z') :
    ∃ regs', Extends e (e.binaryOp .add w (.register r) false (.register r') false).2 start regs
        regs' ∧
      Holds (e.binaryOp .add w (.register r) false (.register r') false).2 regs' w
        (e.binaryOp .add w (.register r) false (.register r') false).1 (z + z') := by
  obtain ⟨l, hreads, hvalue⟩ := h
  obtain ⟨l', hreads', hvalue'⟩ := h'
  have hdef : BinaryOpType.add.Defined (l'.denote false) := trivial
  obtain ⟨regs', hextends, hsum⟩ :=
    binaryOp_extends hruns w hreads hreads' (s := false) (t := false) hdef
  refine ⟨regs', hextends, Holds.of_reads hsum ?_⟩
  rw [exactBinaryOp, denote_false, denote_false]
  exact hvalue.add hvalue'

/-- One pass keeps the sum. -/
theorem addPairs_extends (w : Nat) {registers : List Nat} {values : List Int}
    (hruns : Runs e start regs) (h : List.Forall₂ (Holds e regs w) registers values) :
    ∃ regs' values', Extends e (addPairs w e registers).2 start regs regs' ∧
      List.Forall₂ (Holds (addPairs w e registers).2 regs' w) (addPairs w e registers).1
        values' ∧
      values'.sum = values.sum := by
  induction registers using List.twoStepInduction generalizing e regs values with
  | nil => exact ⟨regs, values, Extends.refl hruns, h, rfl⟩
  | singleton r => exact ⟨regs, values, Extends.refl hruns, h, rfl⟩
  | cons_cons lhs rhs rest ih _ =>
      obtain _ | ⟨hlhs, _ | ⟨hrhs, hrest⟩⟩ := h
      obtain ⟨regs1, hextends1, hsum⟩ := add_extends hruns hlhs hrhs
      obtain ⟨regs2, values', hextends2, hothers, hvalues⟩ :=
        ih hextends1.runs (holds_all_extends hrest hextends1)
      refine ⟨regs2, _ :: values', hextends1.trans hextends2,
        .cons (hsum.extends hextends2) hothers, ?_⟩
      simp only [List.sum_cons, hvalues]
      ring

/-- The tree keeps the sum and leaves at most one register. -/
theorem addTree_extends (w : Nat) {registers : List Nat} {values : List Int}
    (hruns : Runs e start regs) (h : List.Forall₂ (Holds e regs w) registers values) :
    ∃ regs' values', Extends e (addTree w e registers).2 start regs regs' ∧
      List.Forall₂ (Holds (addTree w e registers).2 regs' w) (addTree w e registers).1
        values' ∧
      values'.sum = values.sum ∧ (addTree w e registers).1.length ≤ 1 := by
  induction hn : registers.length using Nat.strongRecOn generalizing e regs registers values with
  | _ n ih =>
      rw [addTree]
      split
      · next hlong =>
        obtain ⟨regs1, values1, hextends1, hpairs, hsum1⟩ := addPairs_extends w hruns h
        have hlt : (addPairs w e registers).1.length < n := by
          rw [length_addPairs]
          omega
        obtain ⟨regs2, values2, hextends2, htree, hsum2, hlength⟩ :=
          ih _ hlt hextends1.runs hpairs rfl
        exact ⟨regs2, values2, hextends1.trans hextends2, htree, hsum2.trans hsum1, hlength⟩
      · next hshort => exact ⟨regs, values, Extends.refl hruns, h, rfl, Nat.le_of_not_lt hshort⟩

/-- `AddRegisters` leaves the sum in the written register. -/
theorem addRegisters_writes {registers : List Nat} {values : List Int}
    {writtenRegister : AllocatedLeafRegister} (hruns : Runs e start regs)
    (hwritten : writtenRegister.AllocatedIn e.table)
    (h : List.Forall₂ (Holds e regs writtenRegister.type.width) registers values) :
    ∃ regs', Writes e (addRegisters e registers writtenRegister) start regs regs'
        (· = writtenRegister.registerIndex) ∧
      Reads (addRegisters e registers writtenRegister) regs'
        (.register writtenRegister.registerIndex)
        ⟨truncate values.sum writtenRegister.type.width, writtenRegister.type.width⟩ := by
  obtain ⟨regs1, values', hextends, htree, hsum, hlength⟩ := addTree_extends _ hruns h
  have hr : writtenRegister.registerIndex <
      (addTree writtenRegister.type.width e registers).2.table.length :=
    Nat.lt_of_lt_of_le hwritten.lt hextends.grows.length_le
  have hw : ((addTree writtenRegister.type.width e registers).2.table.desc
      writtenRegister.registerIndex).width = writtenRegister.type.width := by
    rw [desc_of_grow hextends.grows hwritten.lt]
    exact hwritten.width
  -- The source of the last `Mov` has the sum, modulo two to its width
  obtain ⟨source, l, hpush, hreads, hvalue⟩ : ∃ (source : SourceOperand) (l : Literal),
      addRegisters e registers writtenRegister
        = (addTree writtenRegister.type.width e registers).2.push
          { Emission.movOperation source false with
            dst := [.register writtenRegister.registerIndex] } ∧
      Reads (addTree writtenRegister.type.width e registers).2 regs1 source l ∧
      (l.value : Int) ≡ values.sum [ZMOD 2 ^ writtenRegister.type.width] := by
    rw [← hsum]
    simp only [addRegisters]
    revert htree hlength
    generalize (addTree writtenRegister.type.width e registers).1 = registers'
    intro htree hlength
    cases htree with
    | nil => exact ⟨_, _, rfl, Reads.literal _ _ ⟨0, 64⟩, Int.ModEq.refl 0⟩
    | cons hr hrest =>
        cases hrest with
        | nil =>
            obtain ⟨l, hreads, hvalue⟩ := hr
            refine ⟨_, l, rfl, hreads, ?_⟩
            rw [List.sum_singleton]
            exact hvalue
        | cons _ _ => exact absurd hlength (by simp)
  have hmov := mov_writes hextends.runs hr hreads false
  rw [hw, denote_false, truncate_eq_truncate_iff.mpr hvalue] at hmov
  rw [hpush]
  exact ⟨_, (hextends.writes _).trans hmov.1, hmov.2⟩

/-! ## The bits of the known value -/

/-- The weight of a bit: that of the top bit of a signed type is negative. -/
def LeafType.bitWeight (type : LeafType) (i : Nat) : Int :=
  if type.signed && i == type.width - 1 then -2 ^ i else 2 ^ i

/-- The sum of the weights of the bits below `n` that are set. -/
def LeafType.sumBelow (type : LeafType) (value n : Nat) : Int :=
  ∑ i ∈ Finset.range n, if value.testBit i then type.bitWeight i else 0

theorem mod_two_pow_succ (value n : Nat) :
    value % 2 ^ (n + 1) = value % 2 ^ n + 2 ^ n * (value.testBit n).toNat := by
  rw [Nat.mod_pow_succ, Nat.toNat_testBit]

theorem sumBelow_eq_mod (type : LeafType) (value : Nat) {n : Nat}
    (hn : n < type.width ∨ type.signed = false) : type.sumBelow value n = (value % 2 ^ n : Nat) := by
  induction n with
  | zero => simp [LeafType.sumBelow, Nat.mod_one]
  | succ n ih =>
      have hweight : type.bitWeight n = 2 ^ n := by
        rw [LeafType.bitWeight, if_neg]
        rw [Bool.and_eq_true, beq_iff_eq]
        rintro ⟨hs, hlast⟩
        rcases hn with hn | hn
        · omega
        · rw [hs] at hn
          exact nomatch hn
      rw [LeafType.sumBelow, Finset.sum_range_succ, ← LeafType.sumBelow,
        ih (hn.imp_left fun h => by omega), hweight, mod_two_pow_succ]
      cases value.testBit n <;> simp

/-- The typed value is the sum of its weighted bits. -/
theorem sumBelow_width (type : LeafType) {value : Nat} (hvalue : value < 2 ^ type.width)
    (hwidth : 0 < type.width) :
    type.sumBelow value type.width = Literal.denote ⟨value, type.width⟩ type.signed := by
  cases hs : type.signed with
  | false =>
      rw [sumBelow_eq_mod type value (.inr hs), Nat.mod_eq_of_lt hvalue, denote_false]
  | true =>
      obtain ⟨w, hw⟩ : ∃ w, type.width = w + 1 := ⟨type.width - 1, by omega⟩
      have hlow := sumBelow_eq_mod type value (n := w) (.inl (by omega))
      have hmod := mod_two_pow_succ value w
      rw [hw] at hvalue
      rw [Nat.mod_eq_of_lt hvalue] at hmod
      have hweight : type.bitWeight w = -2 ^ w := by
        rw [LeafType.bitWeight, hs, hw, Nat.add_sub_cancel, beq_self_eq_true, Bool.and_self,
          if_pos rfl]
      rw [hw, LeafType.sumBelow, Finset.sum_range_succ, ← LeafType.sumBelow, hlow, hweight]
      cases hbit : value.testBit w with
      | false =>
          rw [Literal.denote_of_not_negative (by simp [Literal.negative, hbit])]
          rw [hbit] at hmod
          simp only [Bool.toNat_false, Nat.mul_zero, Nat.add_zero] at hmod
          simp [← hmod]
      | true =>
          rw [Literal.denote_of_negative (by simp [Literal.negative, hbit])]
          rw [hbit] at hmod
          simp only [Bool.toNat_true, Nat.mul_one] at hmod
          have hcast : (value : Int) = (value % 2 ^ w : Nat) + 2 ^ w := by
            exact_mod_cast hmod
          rw [if_pos rfl, hcast]
          ring

/-- Bits beyond the known value add nothing. -/
theorem sumBelow_eq_of_clear (type : LeafType) {value i n : Nat} (hin : i ≤ n)
    (hclear : value / 2 ^ i = 0) : type.sumBelow value n = type.sumBelow value i := by
  rw [LeafType.sumBelow, LeafType.sumBelow]
  symm
  apply Finset.sum_subset (Finset.range_mono hin)
  intro j _ hj
  have hij : i ≤ j := by simpa using hj
  have hlt : value < 2 ^ i := (Nat.div_eq_zero_iff_lt (Nat.two_pow_pos i)).mp hclear
  rw [Nat.testBit_lt_two_pow (Nat.lt_of_lt_of_le hlt (Nat.pow_le_pow_right (by decide) hij)),
    if_neg Bool.false_ne_true]

/-! ## The loop -/

/-- The bits of the mask from number `i` on. -/
theorem testBit_mask (value i : Nat) : (value / 2 ^ i * 2 ^ i).testBit i = value.testBit i := by
  rw [← Nat.shiftRight_eq_div_pow, ← Nat.shiftLeft_eq, Nat.testBit_shiftLeft]
  simp

theorem mask_next_of_clear {value i : Nat} (hbit : value.testBit i = false) :
    value / 2 ^ i * 2 ^ i = value / 2 ^ (i + 1) * 2 ^ (i + 1) := by
  apply Nat.eq_of_testBit_eq
  intro j
  simp only [← Nat.shiftRight_eq_div_pow, ← Nat.shiftLeft_eq, Nat.testBit_shiftLeft,
    Nat.testBit_shiftRight]
  rcases Nat.lt_trichotomy j i with hj | rfl | hj
  · simp [Nat.not_le.mpr hj, show ¬ i + 1 ≤ j by omega]
  · simp [hbit]
  · simp [show i ≤ j by omega, show i + 1 ≤ j by omega]

theorem bitUnset_mask {value i : Nat} (hi : i < 2 ^ 32) :
    bitUnset (value / 2 ^ i * 2 ^ i) i = .ok (value / 2 ^ (i + 1) * 2 ^ (i + 1)) := by
  rw [bitUnset, if_pos (le_uint32Max_iff.mpr hi)]
  congr 1
  apply Nat.eq_of_testBit_eq
  intro j
  simp only [Nat.testBit_xor, Nat.testBit_and, Nat.testBit_two_pow, ← Nat.shiftRight_eq_div_pow,
    ← Nat.shiftLeft_eq, Nat.testBit_shiftLeft, Nat.testBit_shiftRight]
  rcases Nat.lt_trichotomy j i with hj | rfl | hj
  · simp [Nat.not_le.mpr hj, show ¬ i + 1 ≤ j by omega]
  · simp
  · simp [show i ≤ j by omega, show i + 1 ≤ j by omega, show i ≠ j by omega]

/-- Shifting the bits of a literal into a literal that is wider by the amount. -/
theorem denote_shiftLeft {l : Literal} (hl : l.value < 2 ^ l.width) (signed : Bool) (i : Nat) :
    Literal.denote ⟨l.value * 2 ^ i, l.width + i⟩ signed = l.denote signed * 2 ^ i := by
  have hneg : Literal.negative ⟨l.value * 2 ^ i, l.width + i⟩ signed = l.negative signed := by
    rw [Literal.negative, Literal.negative]
    rcases Nat.eq_zero_or_pos l.width with hw | hw
    · rw [hw, Nat.pow_zero, Nat.lt_one_iff] at hl
      simp [hl]
    · rw [show l.width + i - 1 = l.width - 1 + i by omega, ← Nat.shiftLeft_eq,
        Nat.testBit_shiftLeft, Nat.add_sub_cancel, decide_eq_true (Nat.le_add_left i _),
        Bool.true_and]
  cases hs : l.negative signed with
  | false =>
      rw [Literal.denote_of_not_negative (hneg.trans hs), Literal.denote_of_not_negative hs]
      push_cast
      rfl
  | true =>
      rw [Literal.denote_of_negative (hneg.trans hs), Literal.denote_of_negative hs]
      push_cast
      ring

section Loop

variable {knownValueType : LeafType} {otherValue : AllocatedLeafRegister} {resultWidth : Nat}

/-- The terms made for the bits below `i`: the integers in the registers to add and in the
    register to subtract, which is a new one, and what they come to. -/
structure TermsFor (knownValueType : LeafType) (otherValue : AllocatedLeafRegister)
    (resultWidth base : Nat) (regs₀ : Nat → Nat) (value i : Nat) (terms : ConstantTerms)
    (regs : Nat → Nat) (values : List Int) (subtracted : Int) : Prop where
  grown : base ≤ terms.emission.table.length
  added : List.Forall₂ (Holds terms.emission regs resultWidth) terms.intermediateRegisters values
  holds : ∀ r, terms.valueToSubtract = some r →
    base ≤ r ∧ Holds terms.emission regs resultWidth r subtracted
  zero : terms.valueToSubtract = none → subtracted = 0
  fresh : i < knownValueType.width → terms.valueToSubtract = none
  sum : values.sum - subtracted =
    knownValueType.sumBelow value i * otherValue.typedValue regs₀

/-- The shifted value, extended if it is signed. -/
theorem shiftedTerm_extends (resultWidth : Nat) {terms : ConstantTerms} {regs₀ : Nat → Nat}
    (hruns : Runs terms.emission start regs)
    (hother : Reads terms.emission regs (.register otherValue.registerIndex)
      (otherValue.bits regs₀)) (i : Nat) :
    let intermediate := terms.emission.binaryOp .shl (otherValue.type.width + i)
      (.register otherValue.registerIndex) false (sizeLiteral i) false
    let final :=
      if otherValue.type.signed then
        intermediate.2.mov resultWidth (.register intermediate.1) true
      else intermediate
    terms.emission.table.length ≤ final.1 ∧
    ∃ regs', Extends terms.emission final.2 start regs regs' ∧
      Holds final.2 regs' resultWidth final.1 (otherValue.typedValue regs₀ * 2 ^ i) := by
  intro intermediate final
  have hintermediate : terms.emission.table.length = intermediate.1 := rfl
  obtain ⟨regs1, hextends1, hshifted⟩ := shl_extends hruns hother false i
    (otherValue.type.width + i)
  have hlt : regs₀ otherValue.registerIndex % 2 ^ otherValue.type.width
      < 2 ^ otherValue.type.width := Nat.mod_lt _ (Nat.two_pow_pos _)
  -- The intermediate register is wide enough for the shifted bits
  have hwide : truncate ((otherValue.bits regs₀).denote false * 2 ^ i) (otherValue.type.width + i)
      = regs₀ otherValue.registerIndex % 2 ^ otherValue.type.width * 2 ^ i := by
    rw [denote_false, AllocatedLeafRegister.bits]
    have hfits : regs₀ otherValue.registerIndex % 2 ^ otherValue.type.width * 2 ^ i
        < 2 ^ (otherValue.type.width + i) := by
      rw [Nat.pow_add]
      exact Nat.mul_lt_mul_of_pos_right hlt (Nat.two_pow_pos i)
    exact_mod_cast truncate_natCast_of_lt hfits
  rw [hwide] at hshifted
  cases hs : otherValue.type.signed with
  | false =>
      have hfinal : final = intermediate := by simp [final, hs]
      rw [hfinal]
      refine ⟨hintermediate.le, regs1, hextends1, _, hshifted, ?_⟩
      rw [AllocatedLeafRegister.typedValue, hs, denote_false, AllocatedLeafRegister.bits]
      push_cast
      exact Int.ModEq.refl _
  | true =>
      have hfinal : final = intermediate.2.mov resultWidth (.register intermediate.1) true := by
        simp [final, hs]
      rw [hfinal]
      obtain ⟨regs2, hextends2, hextended⟩ :=
        mov_extends hextends1.runs hshifted resultWidth true
      refine ⟨hextends1.grows.length_le, regs2, hextends1.trans hextends2,
        Holds.of_reads hextended ?_⟩
      rw [AllocatedLeafRegister.typedValue, hs]
      -- The sign bit moved along with the others
      have hsign : Literal.denote ⟨regs₀ otherValue.registerIndex % 2 ^ otherValue.type.width *
          2 ^ i, otherValue.type.width + i⟩ true = (otherValue.bits regs₀).denote true * 2 ^ i :=
        denote_shiftLeft (show (otherValue.bits regs₀).value < _ from hlt) true i
      rw [hsign]

/-- A set bit adds its term. -/
theorem addConstantTerm_spec {terms : ConstantTerms} {regs₀ : Nat → Nat} {base value i : Nat}
    {values : List Int} {subtracted : Int} (hruns : Runs terms.emission start regs)
    (hother : Reads terms.emission regs (.register otherValue.registerIndex)
      (otherValue.bits regs₀))
    (hi : i < knownValueType.width) (hbit : value.testBit i = true)
    (h : TermsFor knownValueType otherValue resultWidth base regs₀ value i terms regs values
      subtracted) :
    ∃ regs' values' subtracted', Extends terms.emission
        (addConstantTerm knownValueType otherValue resultWidth i terms).emission start regs regs' ∧
      TermsFor knownValueType otherValue resultWidth base regs₀ value (i + 1)
        (addConstantTerm knownValueType otherValue resultWidth i terms) regs' values'
        subtracted' := by
  obtain ⟨hnew, regs', hextends, hfinal⟩ :=
    shiftedTerm_extends resultWidth hruns hother i
  have hnone := h.fresh hi
  have hzero := h.zero hnone
  have hsum := h.sum
  have hgrown := h.grown.trans hextends.grows.length_le
  have hnext : knownValueType.sumBelow value (i + 1) =
      knownValueType.sumBelow value i + knownValueType.bitWeight i := by
    rw [LeafType.sumBelow, Finset.sum_range_succ, ← LeafType.sumBelow, if_pos hbit]
  rw [addConstantTerm]
  split
  · -- The sign bit: nothing was subtracted before
    next hsign =>
    have hweight : knownValueType.bitWeight i = -2 ^ i := by
      rw [LeafType.bitWeight, if_pos hsign]
    refine ⟨regs', values, otherValue.typedValue regs₀ * 2 ^ i, hextends,
      ⟨hgrown, holds_all_extends h.added hextends, ?_, nofun, ?_, ?_⟩⟩
    · intro r hr
      cases hr
      exact ⟨h.grown.trans hnew, hfinal⟩
    · intro hlt
      rw [Bool.and_eq_true, beq_iff_eq] at hsign
      omega
    · rw [hnext, hweight, add_mul, ← hsum, hzero]
      ring
  · next hsign =>
    have hweight : knownValueType.bitWeight i = 2 ^ i := by
      rw [LeafType.bitWeight, if_neg hsign]
    refine ⟨regs', values ++ [otherValue.typedValue regs₀ * 2 ^ i], 0, hextends,
      ⟨hgrown, ?_, ?_, fun _ => rfl, fun _ => hnone, ?_⟩⟩
    · exact List.rel_append (holds_all_extends h.added hextends) (.cons hfinal .nil)
    · intro r hr
      rw [hnone] at hr
      exact nomatch hr
    · rw [hnext, hweight, add_mul, ← hsum, hzero, List.sum_append, List.sum_singleton]
      ring

/-- A clear bit leaves the terms as they are. -/
theorem TermsFor.skip {terms : ConstantTerms} {regs₀ : Nat → Nat} {base value i : Nat}
    {values : List Int} {subtracted : Int} (hbit : value.testBit i = false)
    (h : TermsFor knownValueType otherValue resultWidth base regs₀ value i terms regs values
      subtracted) :
    TermsFor knownValueType otherValue resultWidth base regs₀ value (i + 1) terms regs values
      subtracted := by
  refine ⟨h.grown, h.added, h.holds, h.zero, fun hlt => h.fresh (by omega), ?_⟩
  rw [h.sum, LeafType.sumBelow, LeafType.sumBelow, Finset.sum_range_succ, hbit]
  simp

/-- The loop ends after the bits of the type and has then added all terms. -/
theorem constantTerms_spec {regs₀ : Nat → Nat} {base value : Nat}
    (hvalue : value < 2 ^ knownValueType.width) (hmax : knownValueType.width ≤ 2 ^ 32) (n : Nat) :
    ∀ {i : Nat} {terms : ConstantTerms} {regs : Nat → Nat} {values : List Int} {subtracted : Int},
      i + n = knownValueType.width → Runs terms.emission start regs →
      Reads terms.emission regs (.register otherValue.registerIndex) (otherValue.bits regs₀) →
      TermsFor knownValueType otherValue resultWidth base regs₀ value i terms regs values
        subtracted →
      ∃ terms' regs' values' subtracted',
        (∀ fuel, n < fuel → constantTerms knownValueType otherValue resultWidth fuel
          (value / 2 ^ i * 2 ^ i) i terms = .ok (some terms')) ∧
        Extends terms.emission terms'.emission start regs regs' ∧
        TermsFor knownValueType otherValue resultWidth base regs₀ value knownValueType.width terms'
          regs' values' subtracted' := by
  induction n with
  | zero =>
      intro i terms regs values subtracted hi hruns hother h
      have hend : i = knownValueType.width := hi
      subst hend
      refine ⟨terms, regs, values, subtracted, ?_, Extends.refl hruns, h⟩
      intro fuel hfuel
      obtain ⟨fuel, rfl⟩ : ∃ k, fuel = k + 1 := ⟨fuel - 1, by omega⟩
      rw [constantTerms, Nat.div_eq_of_lt hvalue, Nat.zero_mul, if_pos rfl]
  | succ n ih =>
      intro i terms regs values subtracted hi hruns hother h
      have hlt : i < knownValueType.width := by omega
      have hindex : i ≤ uint32Max := le_uint32Max_iff.mpr (by omega)
      by_cases hmask : value / 2 ^ i * 2 ^ i = 0
      · -- No bits are left
        have hclear : value / 2 ^ i = 0 :=
          (Nat.mul_eq_zero.mp hmask).resolve_right (Nat.two_pow_pos i).ne'
        refine ⟨terms, regs, values, subtracted, ?_, Extends.refl hruns,
          ⟨h.grown, h.added, h.holds, h.zero, fun h' => absurd h' (Nat.lt_irrefl _), ?_⟩⟩
        · intro fuel hfuel
          obtain ⟨fuel, rfl⟩ : ∃ k, fuel = k + 1 := ⟨fuel - 1, by omega⟩
          rw [constantTerms, if_pos hmask]
        · rw [h.sum, sumBelow_eq_of_clear knownValueType (Nat.le_of_lt hlt) hclear]
      · cases hbit : value.testBit i with
        | true =>
            obtain ⟨regs1, values1, subtracted1, hextends1, h1⟩ :=
              addConstantTerm_spec hruns hother hlt hbit h
            obtain ⟨terms', regs', values', subtracted', hloop, hextends', h'⟩ :=
              ih (by omega) hextends1.runs (hextends1.keeps hother) h1
            refine ⟨terms', regs', values', subtracted', ?_, hextends1.trans hextends', h'⟩
            intro fuel hfuel
            obtain ⟨fuel, rfl⟩ : ∃ k, fuel = k + 1 := ⟨fuel - 1, by omega⟩
            rw [constantTerms, if_neg hmask, bitTest, if_pos hindex, testBit_mask, hbit]
            show (bitUnset (value / 2 ^ i * 2 ^ i) i >>= fun bitMask => _) = _
            rw [bitUnset_mask (by omega)]
            exact hloop fuel (by omega)
        | false =>
            obtain ⟨terms', regs', values', subtracted', hloop, hextends', h'⟩ :=
              ih (by omega) hruns hother (h.skip hbit)
            refine ⟨terms', regs', values', subtracted', ?_, hextends', h'⟩
            intro fuel hfuel
            obtain ⟨fuel, rfl⟩ : ∃ k, fuel = k + 1 := ⟨fuel - 1, by omega⟩
            rw [constantTerms, if_neg hmask, bitTest, if_pos hindex, testBit_mask, hbit,
              mask_next_of_clear hbit]
            exact hloop fuel (by omega)

end Loop

/-! ## The product -/

theorem AllocatedLeafRegister.AllocatedIn.reads {reg : AllocatedLeafRegister}
    {table : RegisterTable} {ops : List Operation} (h : reg.AllocatedIn table)
    (regs : Nat → Nat) : Reads ⟨table, ops⟩ regs (.register reg.registerIndex) (reg.bits regs) :=
  Reads.register_iff.mpr ⟨h.lt, h.width, rfl⟩

theorem AllocatedLeafRegister.AllocatedIn.grow {reg : AllocatedLeafRegister}
    {table table' : RegisterTable} (h : reg.AllocatedIn table) (hgrow : table <+: table') :
    reg.AllocatedIn table' :=
  ⟨Nat.lt_of_lt_of_le h.lt hgrow.length_le, by rw [desc_of_grow hgrow h.lt, h.width]⟩

theorem AllocatedLeafRegister.bits_of_reads {reg : AllocatedLeafRegister} {l : Literal}
    (hreads : Reads e regs (.register reg.registerIndex) l) (hwidth : l.width = reg.type.width) :
    reg.bits regs = l := by
  have hvalue := (Reads.register_iff.mp hreads).2.2
  rw [hwidth] at hvalue
  rw [AllocatedLeafRegister.bits, hvalue, ← hwidth]

theorem runs_nil (table : RegisterTable) (regs : Nat → Nat) : Runs ⟨table, []⟩ regs regs :=
  fun _ _ => rfl

/-- `GenerateIntegerMultConstant` ends for every value of the known type, and the operations leave
    in the written register the product of the two typed values, modulo two to its width.  No other
    register of the program changes. -/
theorem generateIntegerMultConstant_exact (table : RegisterTable) (regs : Nat → Nat)
    (knownValueType : LeafType) (knownValue : Nat)
    (otherValue writtenRegister : AllocatedLeafRegister)
    (hvalue : knownValue < 2 ^ knownValueType.width) (hwidth : 0 < knownValueType.width)
    (hmax : knownValueType.width ≤ 2 ^ 32) (hother : otherValue.AllocatedIn table)
    (hwritten : writtenRegister.AllocatedIn table) :
    ∃ e, (∀ fuel, knownValueType.width < fuel →
        generateIntegerMultConstant fuel ⟨table, []⟩ knownValue knownValueType otherValue
          writtenRegister = .ok (some e)) ∧
      ∃ regs', runCombinational e.table regs e.ops = some regs' ∧
        writtenRegister.bits regs' =
          ⟨truncate (Literal.denote ⟨knownValue, knownValueType.width⟩ knownValueType.signed *
            otherValue.typedValue regs) writtenRegister.type.width, writtenRegister.type.width⟩ ∧
        ∀ r, r < table.length → r ≠ writtenRegister.registerIndex → regs' r = regs r := by
  have hruns := runs_nil table regs
  have hstart : TermsFor knownValueType otherValue writtenRegister.type.width table.length regs
      knownValue 0 ⟨⟨table, []⟩, [], none⟩ regs [] 0 :=
    ⟨Nat.le_refl _, .nil, nofun, fun _ => rfl, fun _ => rfl, by simp [LeafType.sumBelow]⟩
  obtain ⟨terms, regs1, values, subtracted, hloop, hextends1, hterms⟩ :=
    constantTerms_spec hvalue hmax knownValueType.width (Nat.zero_add _) hruns (hother.reads regs)
      hstart
  rw [Nat.pow_zero, Nat.div_one, Nat.mul_one] at hloop
  have hsum := hterms.sum
  rw [sumBelow_width knownValueType hvalue hwidth] at hsum
  have hwritten1 := hwritten.grow hextends1.grows
  obtain ⟨regs2, hwrites2, hadded⟩ := addRegisters_writes hextends1.runs hwritten1 hterms.added
  have hwrites : Writes ⟨table, []⟩ _ regs regs regs2 (· = writtenRegister.registerIndex) :=
    (hextends1.writes _).trans hwrites2
  cases hsubtract : terms.valueToSubtract with
  | none =>
      rw [hterms.zero hsubtract, sub_zero] at hsum
      rw [hsum] at hadded
      refine ⟨addRegisters terms.emission terms.intermediateRegisters writtenRegister, ?_, regs2,
        hwrites.runs _ List.prefix_rfl, AllocatedLeafRegister.bits_of_reads hadded rfl,
        hwrites.frame⟩
      intro fuel hfuel
      rw [generateIntegerMultConstant, hloop fuel hfuel]
      show Except.ok (Option.map _ _) = _
      simp only [Option.map_some, hsubtract]
  | some r =>
      obtain ⟨hnew, l, hreads, hl⟩ := hterms.holds r hsubtract
      -- The value to subtract is in a new register, so the sum does not overwrite it
      have hne : ∀ r', SourceOperand.register r = .register r' →
          ¬ r' = writtenRegister.registerIndex := by
        intro r' h
        cases h
        have := hwritten.lt
        omega
      have hwritten2 := hwritten1.grow hwrites2.grows
      have hdef : BinaryOpType.sub.Defined (l.denote false) := trivial
      obtain ⟨regs3, hwrites3, hresult⟩ := binaryOp_writes hwrites2.runs (s := false) (t := false)
        hwritten2.lt hadded (hwrites2.keeps hreads hne) hdef
      have hall := hwrites.trans hwrites3
      refine ⟨_, ?_, regs3, hall.runs _ List.prefix_rfl, ?_, hall.frame⟩
      · intro fuel hfuel
        rw [generateIntegerMultConstant, hloop fuel hfuel]
        show Except.ok (Option.map _ _) = _
        simp only [Option.map_some, hsubtract]
      · apply AllocatedLeafRegister.bits_of_reads
        · rw [hwritten2.width, exactBinaryOp, denote_false, denote_false,
            truncate_eq_truncate_iff.mpr (((truncate_modEq _ _).sub hl).trans
              (by rw [hsum]))] at hresult
          exact hresult
        · rfl

/-- A two-bit -1 times a four-bit 5 into eight bits. -/
theorem generateIntegerMultConstant_negative :
    ∃ e, (∀ fuel, 2 < fuel →
        generateIntegerMultConstant fuel ⟨[localRegister 4, localRegister 8], []⟩ 3 ⟨true, 2⟩
          ⟨⟨false, 4⟩, 0⟩ ⟨⟨true, 8⟩, 1⟩ = .ok (some e)) ∧
      ∃ regs', runCombinational e.table (fun _ => 5) e.ops = some regs' ∧
        (AllocatedLeafRegister.bits ⟨⟨true, 8⟩, 1⟩ regs') = ⟨251, 8⟩ := by
  obtain ⟨e, hloop, regs', hruns, hbits, -⟩ :=
    generateIntegerMultConstant_exact [localRegister 4, localRegister 8] (fun _ => 5) ⟨true, 2⟩ 3
      ⟨⟨false, 4⟩, 0⟩ ⟨⟨true, 8⟩, 1⟩ (by decide) (by decide) (by decide) (by decide) (by decide)
  refine ⟨e, hloop, regs', hruns, hbits.trans ?_⟩
  decide +kernel

end Kanagawa.Generate
