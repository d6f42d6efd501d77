/-
  Kanagawa.Generate.MultiplyParameterized

  Multiplication of two registers is exact.

  Every word but the top one of an operand is unsigned; the top word of a signed
  operand carries the sign.  In this sense the words stand for the typed value
  (`sliceRegister_extends`).  A word extended by one bit reads the same under the
  signedness of its operand, so that the primitive returns the product of the two
  words, and the partial products add up to the product of the operands.
-/
import Kanagawa.Arith.Typed
import Kanagawa.Lib.Radix
import Kanagawa.Lib.Carry
import Kanagawa.Generate.MultiplyConstant

namespace Kanagawa.Generate

open IR IR.Emission Lib.Bits Lib.Radix

variable {e : Emission} {start regs : Nat → Nat}

/-! ## Words -/

/-- The integers that words stand for: the top one may have a sign. -/
def typedWords (m : Nat) (signed : Bool) : List Nat → List Int
  | [] => []
  | a :: as => Literal.denote ⟨a, m⟩ (signed && as.isEmpty) :: typedWords m signed as

/-- A register with a word, allocated not before `base`. -/
def HasWord (e : Emission) (regs : Nat → Nat) (base m r a : Nat) : Prop :=
  base ≤ r ∧ Reads e regs (.register r) ⟨a, m⟩

theorem HasWord.extends {e' : Emission} {regs' : Nat → Nat} {base m r a : Nat}
    (h : HasWord e regs base m r a) (hextends : Extends e e' start regs regs') :
    HasWord e' regs' base m r a :=
  ⟨h.1, hextends.keeps h.2⟩

theorem HasWord.writes {e' : Emission} {regs' : Nat → Nat} {written : Nat → Prop}
    {base m r a : Nat} (h : HasWord e regs base m r a)
    (hwrites : Writes e e' start regs regs' written) (hbase : ∀ r, written r → r < base) :
    HasWord e' regs' base m r a := by
  refine ⟨h.1, hwrites.keeps h.2 ?_⟩
  intro r' hr' hwritten
  cases hr'
  exact absurd (hbase r hwritten) (Nat.not_lt.mpr h.1)

theorem HasWord.lt {base m r a : Nat} (h : HasWord e regs base m r a) : a < 2 ^ m := by
  have hvalue := (Reads.register_iff.mp h.2).2.2
  have hmod : regs r % 2 ^ m = a := hvalue
  rw [← hmod]
  exact Nat.mod_lt _ (Nat.two_pow_pos m)

/-! ## `SliceRegister` -/

/-- A word of the register: the bits at an offset, as the typed value has them. -/
theorem sliceWord_extends {srcReg : AllocatedLeafRegister} {regs₀ : Nat → Nat}
    (hruns : Runs e start regs)
    (hsrc : Reads e regs (.register srcReg.registerIndex) (srcReg.bits regs₀)) (m offset : Nat)
    (hpos : 0 < m) (hoffset : offset < srcReg.type.width) :
    e.table.length ≤ (sliceWord srcReg m offset e).1 ∧
    ∃ regs', Extends e (sliceWord srcReg m offset e).2 start regs regs' ∧
      Reads (sliceWord srcReg m offset e).2 regs' (.register (sliceWord srcReg m offset e).1)
        ⟨truncate (srcReg.typedValue regs₀ / 2 ^ offset) m, m⟩ := by
  obtain ⟨sliceWidth, hwidth⟩ : ∃ w, w = min (offset + m) srcReg.type.width - offset := ⟨_, rfl⟩
  obtain ⟨regs1, hextends1, hreads1⟩ : ∃ regs1, Extends e (e.binaryOp .shr sliceWidth
      (.register srcReg.registerIndex) false (sizeLiteral offset) false).2 start regs regs1 ∧ _ :=
    shr_extends hruns hsrc offset sliceWidth
  have hlt : (srcReg.bits regs₀).value < 2 ^ (srcReg.bits regs₀).width :=
    Nat.mod_lt _ (Nat.two_pow_pos _)
  -- The typed value has the same bits as the register, up to its width
  have hword : wordAt ((srcReg.bits regs₀).denote false) offset sliceWidth =
      truncate (srcReg.typedValue regs₀ / 2 ^ offset) sliceWidth := by
    have hfits : offset + sliceWidth ≤ srcReg.type.width := by omega
    apply truncate_ediv_of_modEq _ hfits
    rw [denote_false]
    exact (denote_modEq_value (srcReg.bits regs₀) srcReg.type.signed).symm
  rw [hword] at hreads1
  rw [sliceWord]
  rw [← hwidth]
  split
  · next hsame =>
    subst hsame
    exact ⟨Nat.le_refl _, regs1, hextends1, hreads1⟩
  · next hsame =>
    -- The top word, extended by its sign
    have hpos' : 0 < sliceWidth := by omega
    have hrange : InType srcReg.type.signed sliceWidth (srcReg.typedValue regs₀ / 2 ^ offset) := by
      have htyped : InType srcReg.type.signed srcReg.type.width (srcReg.typedValue regs₀) :=
        inType_denote hlt (show 0 < srcReg.type.width by omega)
      rw [show srcReg.type.width = offset + sliceWidth by omega] at htyped
      exact htyped.ediv_two_pow hpos'
    obtain ⟨regs2, hextends2, hreads2⟩ := mov_extends hextends1.runs hreads1 m srcReg.type.signed
    rw [denote_truncate_of_inType hpos' hrange] at hreads2
    exact ⟨hextends1.grows.length_le, regs2, hextends1.trans hextends2, hreads2⟩

/-- The words from an offset on stand for the value without the bits below. -/
theorem sliceRegister_extends {srcReg : AllocatedLeafRegister} {regs₀ : Nat → Nat} {base : Nat}
    (m : Nat) (hpos : 0 < m) (n : Nat) :
    ∀ {offset : Nat} {e : Emission} {regs : Nat → Nat}, srcReg.type.width - offset = n →
      base ≤ e.table.length → Runs e start regs →
      Reads e regs (.register srcReg.registerIndex) (srcReg.bits regs₀) →
      ∃ regs' words, Extends e (sliceRegister srcReg m hpos offset e).2 start regs regs' ∧
        List.Forall₂ (HasWord (sliceRegister srcReg m hpos offset e).2 regs' base m)
          (sliceRegister srcReg m hpos offset e).1 words ∧
        words.length = (srcReg.type.width - offset + m - 1) / m ∧
        (offset < srcReg.type.width →
          ofWords m (typedWords m srcReg.type.signed words) =
            srcReg.typedValue regs₀ / 2 ^ offset) := by
  induction n using Nat.strongRecOn with
  | _ n ih =>
      intro offset e regs hn hbase hruns hsrc
      rw [sliceRegister]
      split
      · next hoffset =>
        obtain ⟨hnew, regs1, hextends1, hword⟩ :=
          sliceWord_extends hruns hsrc m offset hpos hoffset
        have hbase1 : base ≤ (sliceWord srcReg m offset e).2.table.length := hbase.trans hextends1.grows.length_le
        obtain ⟨regs2, words, hextends2, hwords, hlength, hsum⟩ :=
          ih (srcReg.type.width - (offset + m)) (by omega) rfl hbase1 hextends1.runs
            (hextends1.keeps hsrc)
        have hhead : HasWord (sliceWord srcReg m offset e).2 regs1 base m
            (sliceWord srcReg m offset e).1 (truncate (srcReg.typedValue regs₀ / 2 ^ offset) m) :=
          ⟨hbase.trans hnew, hword⟩
        refine ⟨regs2, truncate (srcReg.typedValue regs₀ / 2 ^ offset) m :: words,
          hextends1.trans hextends2, .cons (hhead.extends hextends2) hwords, ?_, ?_⟩
        · rw [List.length_cons, hlength, ← Nat.add_div_right _ hpos]
          by_cases hlast : srcReg.type.width - offset ≤ m
          · rw [show srcReg.type.width - (offset + m) + m - 1 + m = m - 1 + m by omega,
              Nat.add_div_right _ hpos, Nat.div_eq_of_lt (by omega)]
            symm
            rw [show srcReg.type.width - offset + m - 1 =
              srcReg.type.width - offset - 1 + m by omega, Nat.add_div_right _ hpos,
              Nat.div_eq_of_lt (by omega)]
          · congr 1
            omega
        · intro _
          rw [typedWords, ofWords_cons]
          by_cases hmore : offset + m < srcReg.type.width
          · -- Not the top word
            have hne : words.isEmpty = false := by
              rw [List.isEmpty_eq_false_iff_exists_mem]
              apply List.exists_mem_of_length_pos
              rw [hlength]
              exact Nat.div_pos (by omega) hpos
            rw [hne, Bool.and_false, denote_false, natCast_truncate, hsum hmore,
              Lib.Carry.ediv_pow_add]
            exact Int.emod_add_mul_ediv _ _
          · have hnil : words = [] := by
              apply List.eq_nil_of_length_eq_zero
              rw [hlength, show srcReg.type.width - (offset + m) = 0 by omega]
              exact Nat.div_eq_of_lt (by omega)
            rw [hnil]
            have hlt : (srcReg.bits regs₀).value < 2 ^ (srcReg.bits regs₀).width :=
              Nat.mod_lt _ (Nat.two_pow_pos _)
            have htyped : InType srcReg.type.signed srcReg.type.width (srcReg.typedValue regs₀) :=
              inType_denote hlt (show 0 < srcReg.type.width by omega)
            have hwide : InType srcReg.type.signed (offset + m) (srcReg.typedValue regs₀) :=
              htyped.mono (by omega)
            rw [List.isEmpty_nil, Bool.and_true,
              denote_truncate_of_inType hpos (hwide.ediv_two_pow hpos), typedWords, ofWords_nil,
              mul_zero, add_zero]
      · next hoffset =>
        refine ⟨regs, [], Extends.refl hruns, .nil, ?_, fun h => absurd h hoffset⟩
        rw [show srcReg.type.width - offset = 0 by omega]
        exact (Nat.div_eq_of_lt (by omega)).symm

/-! ## Partial products -/

/-- A multiplication that returns the full-width product of its two words with the signedness it
    is told.  When one operand is signed, the words of an unsigned one have a clear top bit.  The
    registers in `scratch` are its own, those of an inline function say, and may change. -/
def IsFullMultiplier (emitMult : EmitMult) (width : Nat) (scratch : Nat → Prop) : Prop :=
  ∀ {e : Emission} {start regs : Nat → Nat} {resultReg src0 src1 falseReg x y : Nat}
    {lhsSigned rhsSigned : Bool},
    Runs e start regs →
    resultReg < e.table.length → (e.table.desc resultReg).width = width * 2 →
    Reads e regs (.register src0) ⟨x, width⟩ → Reads e regs (.register src1) ⟨y, width⟩ →
    Reads e regs (.register falseReg) ⟨0, 1⟩ →
    ¬ scratch resultReg → ¬ scratch src0 → ¬ scratch src1 → ¬ scratch falseReg →
    (rhsSigned = true → lhsSigned = false → x < 2 ^ (width - 1)) →
    (lhsSigned = true → rhsSigned = false → y < 2 ^ (width - 1)) →
    ∃ regs', Writes e (emitMult e resultReg src0 src1 falseReg lhsSigned rhsSigned) start regs regs'
        (fun r => r = resultReg ∨ scratch r) ∧
      Reads (emitMult e resultReg src0 src1 falseReg lhsSigned rhsSigned) regs'
        (.register resultReg)
        ⟨truncate (Literal.denote ⟨x, width⟩ lhsSigned * Literal.denote ⟨y, width⟩ rhsSigned)
          (width * 2), width * 2⟩

/-- A register with a summand, allocated not before `base`. -/
def HasSummand (e : Emission) (regs : Nat → Nat) (base w r : Nat) (z : Int) : Prop :=
  base ≤ r ∧ Holds e regs w r z

theorem HasSummand.writes {e' : Emission} {regs' : Nat → Nat} {written : Nat → Prop}
    {base w r : Nat} {z : Int} (h : HasSummand e regs base w r z)
    (hwrites : Writes e e' start regs regs' written) (hbase : ∀ r, written r → r < base) :
    HasSummand e' regs' base w r z := by
  obtain ⟨hr, l, hreads, hvalue⟩ := h
  refine ⟨hr, l, hwrites.keeps hreads ?_, hvalue⟩
  intro r' hr' hwritten
  cases hr'
  exact absurd (hbase r hwritten) (Nat.not_lt.mpr hr)

section PartialProducts

variable {cfg : MultConfig} {scratch : Nat → Prop} {base : Nat}

/-- A word extended for the primitive reads the same under the signedness of its operand. -/
theorem extendedWord_extends (hruns : Runs e start regs) {r a m t : Nat} (signed high : Bool)
    (hpos : 0 < m) (ht : t = m + 1) (hbase : base ≤ e.table.length)
    (hword : HasWord e regs base m r a) :
    ∃ regs' u, Extends e (integerMultExtend e r signed high t).2 start regs regs' ∧
      HasWord (integerMultExtend e r signed high t).2 regs' base t
        (integerMultExtend e r signed high t).1 u ∧
      Literal.denote ⟨u, t⟩ signed = Literal.denote ⟨a, m⟩ (signed && high) ∧
      (signed = false → u < 2 ^ (t - 1)) := by
  subst ht
  have ha := hword.lt
  obtain ⟨regs', hextends, hreads⟩ := mov_extends hruns hword.2 (m + 1) (signed && high)
  have hrange : InType (signed && high) m (Literal.denote ⟨a, m⟩ (signed && high)) :=
    inType_denote_mk (signed && high) ha hpos
  refine ⟨regs', _, hextends, ⟨hbase, hreads⟩, ?_, ?_⟩
  · cases signed with
    | true =>
        apply denote_truncate_of_within
        cases high with
        | true => exact Lib.TwosComplement.Within.mono hrange (Nat.sub_le m 1)
        | false => exact Lib.TwosComplement.within_of_nonneg hrange.1 hrange.2
    | false =>
        have hwide : InType false (m + 1) (Literal.denote ⟨a, m⟩ false) :=
          hrange.mono (Nat.le_succ m)
        exact denote_truncate_of_nonneg hwide.1 hwide.2
  · intro hunsigned
    rw [hunsigned, Bool.false_and, denote_false, truncate_natCast_of_lt]
    · exact ha
    · exact Nat.lt_of_lt_of_le ha (Nat.pow_le_pow_right (by decide) (Nat.le_succ m))

/-- The product of two words fits the register of the partial product. -/
theorem within_product {m : Nat} {x y : Int} {lhsSigned rhsSigned : Bool}
    (hx : InType lhsSigned m x) (hy : InType rhsSigned m y) :
    Lib.TwosComplement.Within (2 * m + 1) (x * y) := by
  have within : ∀ {signed : Bool} {v : Int}, InType signed m v →
      Lib.TwosComplement.Within m v := by
    intro signed v hv
    cases signed with
    | true => exact Lib.TwosComplement.Within.mono hv (Nat.sub_le m 1)
    | false => exact Lib.TwosComplement.within_of_nonneg hv.1 hv.2
  have hproduct := (within hx).mul (within hy)
  rwa [← two_mul] at hproduct

/-- What the loops keep: the words of the operands and the constant, in registers that no call of
    the primitive writes. -/
structure Ready (cfg : MultConfig) (scratch : Nat → Prop) (base : Nat) (e : Emission)
    (start regs : Nat → Nat) : Prop where
  multiplier : IsFullMultiplier cfg.emitMult cfg.targetIntegerMulSrcWidth scratch
  scratch_lt : ∀ r, scratch r → r < base
  width_pos : 0 < cfg.maxTargetSrcWidth
  base_le : base ≤ e.table.length
  runs : Runs e start regs
  zero : HasWord e regs base 1 cfg.falseReg 0

theorem Ready.writes {e' : Emission} {regs' : Nat → Nat} (h : Ready cfg scratch base e start regs)
    (hwrites : Writes e e' start regs regs' scratch) : Ready cfg scratch base e' start regs' :=
  ⟨h.multiplier, h.scratch_lt, h.width_pos, h.base_le.trans hwrites.grows.length_le, hwrites.runs,
    h.zero.writes hwrites h.scratch_lt⟩

/-- Operands with words of the width of the primitive, and the product of the two. -/
theorem product_writes (h : Ready cfg scratch base e start regs) {e' : Emission}
    {regs' : Nat → Nat} {lhs rhs u v : Nat}
    (hextends : Extends (e.allocate (cfg.targetIntegerMulSrcWidth * 2)).2 e' start regs regs')
    (hlhs : HasWord e' regs' base cfg.targetIntegerMulSrcWidth lhs u)
    (hrhs : HasWord e' regs' base cfg.targetIntegerMulSrcWidth rhs v)
    (hu : cfg.rhsSigned = true → cfg.lhsSigned = false →
      u < 2 ^ (cfg.targetIntegerMulSrcWidth - 1))
    (hv : cfg.lhsSigned = true → cfg.rhsSigned = false →
      v < 2 ^ (cfg.targetIntegerMulSrcWidth - 1)) :
    ∃ regs'', Writes e (cfg.emitMult e' e.table.length lhs rhs cfg.falseReg cfg.lhsSigned
        cfg.rhsSigned) start regs regs'' scratch ∧
      Reads (cfg.emitMult e' e.table.length lhs rhs cfg.falseReg cfg.lhsSigned cfg.rhsSigned) regs''
        (.register e.table.length)
        ⟨truncate (Literal.denote ⟨u, cfg.targetIntegerMulSrcWidth⟩ cfg.lhsSigned *
          Literal.denote ⟨v, cfg.targetIntegerMulSrcWidth⟩ cfg.rhsSigned)
          (cfg.targetIntegerMulSrcWidth * 2), cfg.targetIntegerMulSrcWidth * 2⟩ := by
  obtain ⟨hresult, hwidth⟩ := allocate_desc e (cfg.targetIntegerMulSrcWidth * 2)
  have hallocated := allocate_extends h.runs (cfg.targetIntegerMulSrcWidth * 2)
  have hall := hallocated.trans hextends
  have hnot : ∀ {r}, base ≤ r → ¬ scratch r :=
    fun hr hs => absurd (h.scratch_lt _ hs) (Nat.not_lt.mpr hr)
  have hwidth' : (e'.table.desc e.table.length).width = cfg.targetIntegerMulSrcWidth * 2 :=
    (congrArg RegisterDescription.width (desc_of_grow hextends.grows hresult)).trans hwidth
  obtain ⟨regs'', hwrites, hreads⟩ := h.multiplier hextends.runs
    (Nat.lt_of_lt_of_le hresult hextends.grows.length_le) hwidth' hlhs.2 hrhs.2
    (hall.keeps h.zero.2) (hnot h.base_le) (hnot hlhs.1) (hnot hrhs.1) (hnot h.zero.1) hu hv
  refine ⟨regs'', ((hall.writes _).trans hwrites).mono ?_, hreads⟩
  intro r hr hwritten
  rcases hwritten with rfl | hscratch
  · exact absurd hr (Nat.lt_irrefl _)
  · exact hscratch

/-- The product of two words, shifted to its place. -/
theorem partialProduct_writes (h : Ready cfg scratch base e start regs) {i j lhsTerm rhsTerm a b : Nat}
    {lhsIsHigh rhsIsHigh : Bool}
    (hlhs : HasWord e regs base cfg.maxTargetSrcWidth lhsTerm a)
    (hrhs : HasWord e regs base cfg.maxTargetSrcWidth rhsTerm b) :
    ∃ regs', Writes e (cfg.partialProduct e i j lhsIsHigh rhsIsHigh lhsTerm rhsTerm).2 start regs
        regs' scratch ∧
      HasSummand (cfg.partialProduct e i j lhsIsHigh rhsIsHigh lhsTerm rhsTerm).2 regs' base
        cfg.resultWidth (cfg.partialProduct e i j lhsIsHigh rhsIsHigh lhsTerm rhsTerm).1
        (Literal.denote ⟨a, cfg.maxTargetSrcWidth⟩ (cfg.lhsSigned && lhsIsHigh) *
          Literal.denote ⟨b, cfg.maxTargetSrcWidth⟩ (cfg.rhsSigned && rhsIsHigh) *
          2 ^ ((i + j) * cfg.maxTargetSrcWidth)) := by
  have hallocated := allocate_extends h.runs (cfg.targetIntegerMulSrcWidth * 2)
  have hlhs0 := hlhs.extends hallocated
  have hrhs0 := hrhs.extends hallocated
  have hx := inType_denote_mk (cfg.lhsSigned && lhsIsHigh) hlhs.lt h.width_pos
  have hy := inType_denote_mk (cfg.rhsSigned && rhsIsHigh) hrhs.lt h.width_pos
  have hpos := h.width_pos
  rw [MultConfig.partialProduct]
  cases heither : cfg.eitherOperandSigned with
  | true =>
      simp only [if_true]
      have ht : cfg.targetIntegerMulSrcWidth = cfg.maxTargetSrcWidth + 1 := by
        rw [MultConfig.maxTargetSrcWidth, heither, getIntegerMultMaxTargetSrcWidth, if_pos rfl]
          at hpos ⊢
        omega
      have hbase1 := h.base_le.trans hallocated.grows.length_le
      obtain ⟨regs1, u, hextends1, hu, hdenoteU, hsmallU⟩ :=
        extendedWord_extends hallocated.runs cfg.lhsSigned lhsIsHigh hpos ht hbase1 hlhs0
      obtain ⟨regs2, v, hextends2, hv, hdenoteV, hsmallV⟩ :=
        extendedWord_extends hextends1.runs cfg.rhsSigned rhsIsHigh hpos ht
          (hbase1.trans hextends1.grows.length_le) (hrhs0.extends hextends1)
      obtain ⟨regs3, hwrites3, hproduct⟩ := product_writes h (hextends1.trans hextends2)
        (hu.extends hextends2) hv (fun _ hs => hsmallU hs) (fun _ hs => hsmallV hs)
      rw [hdenoteU, hdenoteV] at hproduct
      obtain ⟨regs4, hextends4, hextended⟩ := mov_extends hwrites3.runs hproduct cfg.resultWidth true
      have hdouble : cfg.targetIntegerMulSrcWidth * 2 = 2 * cfg.maxTargetSrcWidth + 1 + 1 := by
        omega
      have hread := denote_truncate_of_within (within_product hx hy)
      rw [← hdouble] at hread
      rw [hread] at hextended
      obtain ⟨regs5, hextends5, hshifted⟩ := shl_extends hextends4.runs hextended false
        ((i + j) * cfg.maxTargetSrcWidth) cfg.resultWidth
      have hgrown := hwrites3.grows.trans hextends4.grows
      refine ⟨regs5, (hwrites3.trans (hextends4.writes _)).trans (hextends5.writes _),
        h.base_le.trans hgrown.length_le, Holds.of_reads hshifted ?_⟩
      rw [denote_false]
      exact (truncate_modEq _ _).mul_right _
  | false =>
      simp only [Bool.false_eq_true, if_false]
      have ht : cfg.targetIntegerMulSrcWidth = cfg.maxTargetSrcWidth := by
        rw [MultConfig.maxTargetSrcWidth, heither, getIntegerMultMaxTargetSrcWidth,
          if_neg Bool.false_ne_true]
      rw [MultConfig.eitherOperandSigned, Bool.or_eq_false_iff] at heither
      obtain ⟨hl, hr⟩ := heither
      have hlhs' : HasWord (e.allocate (cfg.targetIntegerMulSrcWidth * 2)).2 regs base
          cfg.targetIntegerMulSrcWidth lhsTerm a := by rwa [ht] at hlhs0 ⊢
      have hrhs' : HasWord (e.allocate (cfg.targetIntegerMulSrcWidth * 2)).2 regs base
          cfg.targetIntegerMulSrcWidth rhsTerm b := by rwa [ht] at hrhs0 ⊢
      obtain ⟨regs3, hwrites3, hproduct⟩ := product_writes h
        (Extends.refl hallocated.runs) hlhs' hrhs'
        (fun hs => by rw [hr] at hs; exact nomatch hs)
        (fun hs => by rw [hl] at hs; exact nomatch hs)
      obtain ⟨regs5, hextends5, hshifted⟩ := shl_extends hwrites3.runs hproduct false
        ((i + j) * cfg.maxTargetSrcWidth) cfg.resultWidth
      refine ⟨regs5, hwrites3.trans (hextends5.writes _),
        h.base_le.trans hwrites3.grows.length_le, Holds.of_reads hshifted ?_⟩
      -- Unsigned words: the product fits twice the width
      have hfits : a * b < 2 ^ (cfg.targetIntegerMulSrcWidth * 2) := by
        rw [ht, Nat.mul_two, Nat.pow_add]
        exact Nat.mul_lt_mul'' hlhs.lt hrhs.lt
      rw [hl, hr, Bool.false_and, Bool.false_and, denote_false, denote_false, denote_false,
        denote_false, denote_false, ← Nat.cast_mul, truncate_natCast_of_lt hfits]

theorem hasSummand_all_writes {e' : Emission} {regs' : Nat → Nat} {w : Nat} {registers : List Nat}
    {values : List Int} (h : Ready cfg scratch base e start regs)
    (hholds : List.Forall₂ (HasSummand e regs base w) registers values)
    (hwrites : Writes e e' start regs regs' scratch) :
    List.Forall₂ (HasSummand e' regs' base w) registers values :=
  hholds.imp fun _ _ hsummand => hsummand.writes hwrites h.scratch_lt

theorem hasWord_all_writes {e' : Emission} {regs' : Nat → Nat} {m : Nat} {registers words : List Nat}
    (h : Ready cfg scratch base e start regs)
    (hwords : List.Forall₂ (HasWord e regs base m) registers words)
    (hwrites : Writes e e' start regs regs' scratch) :
    List.Forall₂ (HasWord e' regs' base m) registers words :=
  hwords.imp fun _ _ hword => hword.writes hwrites h.scratch_lt

/-- The inner loop, over the remaining words of the right operand. -/
theorem partialProductRow_writes {i lhsTerm a : Nat} {lhsIsHigh : Bool} {rhsTerms : List Nat} :
    ∀ {j : Nat} {bs : List Nat} {e : Emission} {regs : Nat → Nat},
      Ready cfg scratch base e start regs →
      HasWord e regs base cfg.maxTargetSrcWidth lhsTerm a →
      List.Forall₂ (HasWord e regs base cfg.maxTargetSrcWidth) rhsTerms bs →
      ∃ regs', Writes e (cfg.partialProductRow i lhsIsHigh lhsTerm j e rhsTerms).2 start regs regs'
          scratch ∧
        List.Forall₂ (HasSummand (cfg.partialProductRow i lhsIsHigh lhsTerm j e rhsTerms).2 regs'
          base cfg.resultWidth) (cfg.partialProductRow i lhsIsHigh lhsTerm j e rhsTerms).1
          (rowProducts cfg.maxTargetSrcWidth i
            (Literal.denote ⟨a, cfg.maxTargetSrcWidth⟩ (cfg.lhsSigned && lhsIsHigh)) j
            (typedWords cfg.maxTargetSrcWidth cfg.rhsSigned bs)) := by
  induction rhsTerms with
  | nil =>
      intro j bs e regs h _ hrhs
      cases hrhs
      exact ⟨regs, (Extends.refl h.runs).writes _, .nil⟩
  | cons rhsTerm rhsTerms ih =>
      intro j bs e regs h hlhs hrhs
      obtain _ | ⟨hb, hbs⟩ := hrhs
      next b bs =>
      obtain ⟨regs1, hwrites1, hsummand⟩ :=
        partialProduct_writes (i := i) (j := j) h hlhs hb
      obtain ⟨regs2, hwrites2, hothers⟩ := ih (j := j + 1) (h.writes hwrites1)
        (hlhs.writes hwrites1 h.scratch_lt) (hasWord_all_writes h hbs hwrites1)
      have hempty : rhsTerms.isEmpty = bs.isEmpty := by
        cases hbs <;> rfl
      refine ⟨regs2, hwrites1.trans hwrites2, .cons ?_ hothers⟩
      rw [← hempty]
      exact hsummand.writes hwrites2 h.scratch_lt

/-- The outer loop, over the remaining words of the left operand. -/
theorem partialProducts_writes {rhsTerms bs lhsTerms : List Nat} :
    ∀ {i : Nat} {as : List Nat} {e : Emission} {regs : Nat → Nat},
      Ready cfg scratch base e start regs →
      List.Forall₂ (HasWord e regs base cfg.maxTargetSrcWidth) rhsTerms bs →
      List.Forall₂ (HasWord e regs base cfg.maxTargetSrcWidth) lhsTerms as →
      ∃ regs', Writes e (cfg.partialProducts rhsTerms i e lhsTerms).2 start regs regs' scratch ∧
        List.Forall₂ (HasSummand (cfg.partialProducts rhsTerms i e lhsTerms).2 regs' base
          cfg.resultWidth) (cfg.partialProducts rhsTerms i e lhsTerms).1
          (allProducts cfg.maxTargetSrcWidth (typedWords cfg.maxTargetSrcWidth cfg.rhsSigned bs) i
            (typedWords cfg.maxTargetSrcWidth cfg.lhsSigned as)) := by
  induction lhsTerms with
  | nil =>
      intro i as e regs h _ hlhs
      cases hlhs
      exact ⟨regs, (Extends.refl h.runs).writes _, .nil⟩
  | cons lhsTerm lhsTerms ih =>
      intro i as e regs h hrhs hlhs
      obtain _ | ⟨ha, has⟩ := hlhs
      next a as =>
      obtain ⟨regs1, hwrites1, hrow⟩ :=
        partialProductRow_writes (i := i) (j := 0) h ha hrhs
      obtain ⟨regs2, hwrites2, hothers⟩ := ih (i := i + 1) (h.writes hwrites1)
        (hasWord_all_writes h hrhs hwrites1) (hasWord_all_writes h has hwrites1)
      have hempty : lhsTerms.isEmpty = as.isEmpty := by
        cases has <;> rfl
      refine ⟨regs2, hwrites1.trans hwrites2, List.rel_append ?_ hothers⟩
      rw [← hempty]
      exact hasSummand_all_writes (h.writes hwrites1) hrow hwrites2

theorem length_partialProductRow (i lhsTerm : Nat) (lhsIsHigh : Bool) (rhsTerms : List Nat) :
    ∀ (j : Nat) (e : Emission),
      (cfg.partialProductRow i lhsIsHigh lhsTerm j e rhsTerms).1.length = rhsTerms.length := by
  induction rhsTerms with
  | nil => exact fun _ _ => rfl
  | cons rhsTerm rhsTerms ih =>
      intro j e
      rw [MultConfig.partialProductRow, List.length_cons, List.length_cons, ih]

theorem length_partialProducts (rhsTerms lhsTerms : List Nat) : ∀ (i : Nat) (e : Emission),
    (cfg.partialProducts rhsTerms i e lhsTerms).1.length = lhsTerms.length * rhsTerms.length := by
  induction lhsTerms with
  | nil => simp [MultConfig.partialProducts]
  | cons lhsTerm lhsTerms ih =>
      intro i e
      rw [MultConfig.partialProducts, List.length_append, length_partialProductRow, ih,
        List.length_cons]
      ring

end PartialProducts

/-! ## The product -/

/-- The words of a whole register. -/
theorem sliceRegister_typedValue {srcReg : AllocatedLeafRegister} {regs₀ : Nat → Nat} {base m : Nat}
    (hpos : 0 < m) (hbase : base ≤ e.table.length) (hruns : Runs e start regs)
    (hsrc : Reads e regs (.register srcReg.registerIndex) (srcReg.bits regs₀)) :
    ∃ regs' words, Extends e (sliceRegister srcReg m hpos 0 e).2 start regs regs' ∧
      List.Forall₂ (HasWord (sliceRegister srcReg m hpos 0 e).2 regs' base m)
        (sliceRegister srcReg m hpos 0 e).1 words ∧
      words.length = (srcReg.type.width + m - 1) / m ∧
      ofWords m (typedWords m srcReg.type.signed words) = srcReg.typedValue regs₀ := by
  obtain ⟨regs', words, hextends, hwords, hlength, hsum⟩ :=
    sliceRegister_extends m hpos _ rfl hbase hruns hsrc
  refine ⟨regs', words, hextends, hwords, hlength, ?_⟩
  rcases Nat.eq_zero_or_pos srcReg.type.width with hzero | hwidth
  · -- A register without bits has no words
    have hnil : words = [] := by
      apply List.eq_nil_of_length_eq_zero
      rw [hlength, hzero]
      exact Nat.div_eq_of_lt (by omega)
    have hvalue : srcReg.bits regs₀ = ⟨0, 0⟩ := by
      rw [AllocatedLeafRegister.bits, hzero, Nat.pow_zero, Nat.mod_one]
    rw [hnil, AllocatedLeafRegister.typedValue, hvalue]
    cases srcReg.type.signed <;> rfl
  · rw [hsum hwidth, pow_zero, Int.ediv_one]

/-- The operations of `GenerateIntegerMultParameterized` leave in the written register the product
    of the two typed values, modulo two to its width, and there are as many partial products as
    `GetCalledInlineFunction` counts calls.  Besides the written register only registers of the
    primitive change. -/
theorem generateIntegerMultParameterized_exact (table : RegisterTable) (regs : Nat → Nat)
    (lhsRegister rhsRegister writtenRegister : AllocatedLeafRegister)
    (targetIntegerMulSrcWidth : Nat)
    (hwidth : UsableSrcWidth lhsRegister rhsRegister targetIntegerMulSrcWidth)
    (emitMult : EmitMult) (scratch : Nat → Prop)
    (hmultiplier : IsFullMultiplier emitMult targetIntegerMulSrcWidth scratch)
    (hscratch : ∀ r, scratch r → r < table.length) (hlhs : lhsRegister.AllocatedIn table)
    (hrhs : rhsRegister.AllocatedIn table) (hwritten : writtenRegister.AllocatedIn table) :
    let products := generatePartialProducts ⟨table, []⟩ lhsRegister rhsRegister
      targetIntegerMulSrcWidth hwidth emitMult writtenRegister
    let e := generateIntegerMultParameterized ⟨table, []⟩ lhsRegister rhsRegister
      targetIntegerMulSrcWidth hwidth emitMult writtenRegister
    products.1.length = getCalledInlineFunctionCount lhsRegister.type rhsRegister.type
      targetIntegerMulSrcWidth ∧
    ∃ regs', runCombinational e.table regs e.ops = some regs' ∧
      writtenRegister.bits regs' =
        ⟨truncate (lhsRegister.typedValue regs * rhsRegister.typedValue regs)
          writtenRegister.type.width, writtenRegister.type.width⟩ ∧
      ∀ r, r < table.length → r ≠ writtenRegister.registerIndex → ¬ scratch r →
        regs' r = regs r := by
  intro products e
  obtain ⟨regs1, as, hextends1, has, hlengthA, hsumA⟩ :=
    sliceRegister_typedValue hwidth (Nat.le_refl _) (runs_nil table regs) (hlhs.reads regs)
  obtain ⟨regs2, bs, hextends2, hbs, hlengthB, hsumB⟩ :=
    sliceRegister_typedValue hwidth hextends1.grows.length_le hextends1.runs
      (hextends1.keeps (hrhs.reads regs))
  obtain ⟨regs3, hextends3, hfalse⟩ :=
    mov_extends hextends2.runs (Reads.literal _ regs2 ⟨0, 64⟩) 1 false
  have hextends := (hextends1.trans hextends2).trans hextends3
  have hbase := hextends.grows.length_le
  obtain ⟨falseReg, hfalseReg⟩ : ∃ falseReg, falseReg =
    (sliceRegister rhsRegister _ hwidth 0 (sliceRegister lhsRegister _ hwidth 0 ⟨table, []⟩).2).2.mov
      1 (sizeLiteral 0) false := ⟨_, rfl⟩
  -- The state before the two loops
  have hready : Ready ⟨lhsRegister.type.signed, rhsRegister.type.signed, targetIntegerMulSrcWidth,
      writtenRegister.type.width, falseReg.1, emitMult⟩ scratch table.length falseReg.2 regs
      regs3 := by
    rw [hfalseReg]
    refine ⟨hmultiplier, hscratch, hwidth, hbase, hextends3.runs, ?_, hfalse⟩
    exact (hextends1.trans hextends2).grows.length_le
  have hlhsWords := has.imp fun _ _ h => (h.extends hextends2).extends hextends3
  have hrhsWords := hbs.imp fun _ _ h => h.extends hextends3
  obtain ⟨regs4, hwrites4, hsummands⟩ := partialProducts_writes (i := 0) hready
    (hfalseReg ▸ hrhsWords) (hfalseReg ▸ hlhsWords)
  subst hfalseReg
  have hall : Writes ⟨table, []⟩ products.2 regs regs regs4 scratch :=
    (hextends.writes scratch).trans hwrites4
  have hwritten4 : writtenRegister.AllocatedIn products.2.table := hwritten.grow hall.grows
  obtain ⟨regs5, hwrites5, hsum⟩ :=
    addRegisters_writes hall.runs hwritten4 (hsummands.imp fun _ _ h => h.2)
  rw [sum_allProducts, Nat.zero_mul, pow_zero, one_mul] at hsum
  refine ⟨?_, regs5, hwrites5.runs _ List.prefix_rfl, ?_, ?_⟩
  · rw [getCalledInlineFunctionCount, ← hlengthA, ← hlengthB, ← has.length_eq, ← hbs.length_eq]
    exact length_partialProducts _ _ _ _
  · rw [← hsumA, ← hsumB]
    exact AllocatedLeafRegister.bits_of_reads hsum rfl
  · intro r hr hne hnot
    rw [hwrites5.frame r (Nat.lt_of_lt_of_le hr hall.grows.length_le) hne, hall.frame r hr hnot]

/-- The multiplication that `GenerateIntegerMult` emits for devices without a multiplier. -/
theorem isFullMultiplier_emitLutMul (width : Nat) :
    IsFullMultiplier emitLutMul width (fun _ => False) := by
  intro e start regs resultReg src0 src1 falseReg x y lhsSigned rhsSigned hruns hresult hwidth h0 h1
    _ _ _ _ _ _ _
  have hdef : BinaryOpType.lutMul.Defined (Literal.denote ⟨y, width⟩ rhsSigned) := trivial
  obtain ⟨regs', hwrites, hreads⟩ := binaryOp_writes hruns (s := lhsSigned) (t := rhsSigned) hresult
    h0 h1 hdef
  rw [hwidth] at hreads
  exact ⟨regs', hwrites.mono fun _ _ h => .inl h, hreads⟩

/-- A three-bit -3 times an unsigned four-bit 9 into eight bits, with words of two bits. -/
theorem generateIntegerMultParameterized_mixed :
    ∃ (hwidth : UsableSrcWidth ⟨⟨true, 3⟩, 0⟩ ⟨⟨false, 4⟩, 1⟩ 3) (regs' : Nat → Nat),
      runCombinational
        (generateIntegerMultParameterized ⟨[localRegister 3, localRegister 4, localRegister 8], []⟩
          ⟨⟨true, 3⟩, 0⟩ ⟨⟨false, 4⟩, 1⟩ 3 hwidth emitLutMul ⟨⟨true, 8⟩, 2⟩).table
        (fun r => if r = 0 then 5 else 9)
        (generateIntegerMultParameterized ⟨[localRegister 3, localRegister 4, localRegister 8], []⟩
          ⟨⟨true, 3⟩, 0⟩ ⟨⟨false, 4⟩, 1⟩ 3 hwidth emitLutMul ⟨⟨true, 8⟩, 2⟩).ops = some regs' ∧
      AllocatedLeafRegister.bits ⟨⟨true, 8⟩, 2⟩ regs' = ⟨229, 8⟩ := by
  have hwidth : UsableSrcWidth ⟨⟨true, 3⟩, 0⟩ ⟨⟨false, 4⟩, 1⟩ 3 := by decide
  obtain ⟨-, regs', hruns, hbits, -⟩ := generateIntegerMultParameterized_exact
    [localRegister 3, localRegister 4, localRegister 8] (fun r => if r = 0 then 5 else 9)
    ⟨⟨true, 3⟩, 0⟩ ⟨⟨false, 4⟩, 1⟩ ⟨⟨true, 8⟩, 2⟩ 3 hwidth emitLutMul (fun _ => False)
    (isFullMultiplier_emitLutMul 3) (fun _ h => h.elim) (by decide) (by decide) (by decide)
  refine ⟨hwidth, regs', hruns, hbits.trans ?_⟩
  decide +kernel

end Kanagawa.Generate
