/-
  Kanagawa.Generate.Divide

  Run-time quotients and remainders by a power of two (`BinaryOpNode::GenerateIR`).

  A quotient is a shift; for a negative dividend the divisor minus one is added
  first, so that the shift rounds toward zero.  The sum has one bit more than the
  dividend, which is too few when the divisor exceeds the range of the dividend.
  A remainder is a mask, applied to the absolute value of a negative dividend.
-/
import Kanagawa.Arith.Typed
import Kanagawa.Generate.MultiplyConstant

namespace Kanagawa.Generate

open IR IR.Emission Lib.Bits Lib.TwosComplement

/-! ## The operations -/

/-- `c_maxRegisterBitWidth`: `GetLeafType` refuses wider types. -/
def maxRegisterBitWidth : Nat := 1024 * 1024

/-- `IsPow2`. -/
def isPow2 (input : Nat) : Bool := decide (input > 0) && (input &&& (input - 1)) == 0

/-- `Log2`. -/
def log2 (input : Nat) : Except Failure Nat := do
  assert (isPow2 input)
  return input.log2

/-- `SourceOperand(const mp_int&)`: a literal as wide as its value. -/
def mpLiteral (value : Nat) : SourceOperand :=
  .literal ⟨value, if value = 0 then 1 else value.log2 + 1⟩

/-- The sign bit of the left-hand side in a register of one bit. -/
def emitSignBit (e : Emission) (lhs : AllocatedLeafRegister) : Nat × Emission :=
  e.binaryOp .shr 1 (.register lhs.registerIndex) lhs.type.signed (sizeLiteral (lhs.type.width - 1))
    false

/-- The register that is shifted for a quotient.  If it is negative, then a constant must be added
    to implement rounding towards zero. -/
def divShiftSource (e : Emission) (lhs : AllocatedLeafRegister) (knownValue : Nat) :
    Except Failure (Nat × Emission) :=
  if lhs.type.signed && decide (knownValue > 1) then do
    let signBitReg := emitSignBit e lhs
    let valueToAddWidth ← log2 knownValue
    let valueToAdd ← mpToSizeT (knownValue - 1)
    let valueToAddReg := signBitReg.2.mux21 valueToAddWidth (.register signBitReg.1)
      (sizeLiteral 0) false (sizeLiteral valueToAdd) false
    return valueToAddReg.2.binaryOp .add (lhs.type.width + 1) (.register lhs.registerIndex)
      lhs.type.signed (.register valueToAddReg.1) false
  else return (lhs.registerIndex, e)

/-- The case `Div`; `none` is the error message. -/
def generateDiv (e : Emission) (lhs : AllocatedLeafRegister) (knownValue : Nat)
    (writtenRegister : AllocatedLeafRegister) : Except Failure (Option Emission) :=
  if isPow2 knownValue then do
    let shiftSrcReg ← divShiftSource e lhs knownValue
    let shiftAmount ← log2 knownValue
    return some (shiftSrcReg.2.push
      { binaryOperation .shr (.register shiftSrcReg.1) lhs.type.signed (sizeLiteral shiftAmount)
          false with
        dst := [.register writtenRegister.registerIndex] })
  else return none

/-- The case `Mod`; `none` is the error message. -/
def generateMod (e : Emission) (lhs : AllocatedLeafRegister) (knownValue : Nat)
    (writtenRegister : AllocatedLeafRegister) : Option Emission :=
  if isPow2 knownValue then
    let mask := mpLiteral (knownValue - 1)
    let dst := [DestinationOperand.register writtenRegister.registerIndex]
    if lhs.type.signed then
      let signBitReg := emitSignBit e lhs
      let positiveMod := signBitReg.2.binaryOp .and writtenRegister.type.width
        (.register lhs.registerIndex) false mask false
      -- Width is + 2 because there are 2 add operations
      let tempReg := positiveMod.2.emit
        (unaryOperation .invert (.register lhs.registerIndex) lhs.type.signed) (lhs.type.width + 2)
      let tempDst := [DestinationOperand.register tempReg.1]
      let addOne := { binaryOperation .add (.register tempReg.1) false (sizeLiteral 1) false with
        dst := tempDst }
      let andMask := { binaryOperation .and (.register tempReg.1) false mask false with
        dst := tempDst }
      let invert := { unaryOperation .invert (.register tempReg.1) false with dst := tempDst }
      let negated := (((tempReg.2.push addOne).push andMask).push invert).push addOne
      some (negated.push
        { mux21Operation (.register signBitReg.1) (.register positiveMod.1) false
            (.register tempReg.1) lhs.type.signed with dst := dst })
    else
      some (e.push { binaryOperation .and (.register lhs.registerIndex) false mask false with
        dst := dst })
  else none

/-- The two cases of `BinaryOpNode::GenerateIR` for a right-hand side that is known. -/
def generateDivMod (e : Emission) (opType : BinaryOpType) (lhs : AllocatedLeafRegister)
    (knownValue : Nat) (writtenRegister : AllocatedLeafRegister) :
    Except Failure (Option Emission) :=
  match opType with
  | .div => generateDiv e lhs knownValue writtenRegister
  | .mod => .ok (generateMod e lhs knownValue writtenRegister)
  | _ => .error .assertion

/-! ## Integers -/

theorem isPow2_two_pow (k : Nat) : isPow2 (2 ^ k) = true := by
  rw [isPow2, Nat.and_two_pow_sub_one_eq_mod, Nat.mod_self]
  simp

theorem log2_two_pow (k : Nat) : log2 (2 ^ k) = .ok k := by
  rw [log2, isPow2_two_pow, Nat.log2_two_pow]
  rfl

/-- Adding the divisor minus one makes the shift round toward zero. -/
theorem tdiv_two_pow_of_neg {x : Int} (hx : x < 0) (k : Nat) :
    x.tdiv (2 ^ k) = (x + (2 ^ k - 1)) / 2 ^ k := by
  have hpos := two_pow_pos k
  have hsplit := Int.emod_add_mul_ediv x (2 ^ k)
  have hlow := Int.emod_nonneg x hpos.ne'
  have hhigh := Int.emod_lt_of_pos x hpos
  rw [Int.tdiv_eq_ediv]
  symm
  by_cases hdvd : (2 : Int) ^ k ∣ x
  · -- A multiple of the divisor: the constant does not reach the next one
    rw [if_pos (.inr hdvd), add_zero]
    rw [Int.emod_eq_zero_of_dvd hdvd, zero_add] at hsplit
    have hsum : x + (2 ^ k - 1) = 2 ^ k - 1 + 2 ^ k * (x / 2 ^ k) := by linarith
    rw [hsum, Int.add_mul_ediv_left _ _ hpos.ne', Int.ediv_eq_zero_of_lt (by omega) (by omega),
      zero_add]
  · have hne : x % 2 ^ k ≠ 0 := fun h => hdvd (Int.dvd_of_emod_eq_zero h)
    rw [if_neg (by omega), Int.sign_eq_one_of_pos hpos]
    have hsum : x + (2 ^ k - 1) = x % 2 ^ k - 1 + 2 ^ k * (x / 2 ^ k + 1) := by linarith
    rw [hsum, Int.add_mul_ediv_left _ _ hpos.ne', Int.ediv_eq_zero_of_lt (by omega) (by omega),
      zero_add]

theorem tdiv_two_pow_of_nonneg {x : Int} (hx : 0 ≤ x) (k : Nat) : x.tdiv (2 ^ k) = x / 2 ^ k :=
  Int.tdiv_eq_ediv_of_nonneg hx

/-- The remainder of a negative dividend is that of its absolute value, negated. -/
theorem tmod_two_pow_of_neg {x : Int} (hx : x < 0) (k : Nat) :
    x.tmod (2 ^ k) = -(-x % 2 ^ k) := by
  rw [← Int.tmod_eq_emod_of_nonneg (by omega), Int.neg_tmod, neg_neg]

theorem ediv_eq_neg_one {x d : Int} (hx : x < 0) (hd : -d ≤ x) : x / d = -1 := by
  have hpos : 0 < d := by omega
  have hlt : x / d < 0 := Int.ediv_neg_of_neg_of_pos hx hpos
  have hle : -1 ≤ x / d := by
    rw [Int.le_ediv_iff_mul_le hpos]
    omega
  omega

/-- The sign bit. -/
theorem wordAt_sign {w : Nat} {x : Int} (hx : Within w x) :
    wordAt x w 1 = if x < 0 then 1 else 0 := by
  have hpos := two_pow_pos w
  rw [wordAt, truncate_eq, pow_one]
  split
  · next hneg =>
    have hquotient : x / 2 ^ w = -1 := ediv_eq_neg_one hneg hx.1
    rw [hquotient]
    rfl
  · next hnonneg =>
    rw [Int.ediv_eq_zero_of_lt (by omega) hx.2]
    rfl

/-! ## Quotients -/

section Quotient

variable {e : Emission} {start regs : Nat → Nat} {lhs : AllocatedLeafRegister}

/-- The inputs on which a quotient by `2 ^ k` is right: the constant to add fits `size_t`, and it
    is not beyond the range of a negative dividend. -/
def QuotientInRange (lhs : AllocatedLeafRegister) (k : Nat) (x : Int) : Prop :=
  lhs.type.signed = false ∨ k = 0 ∨ k ≤ 64 ∧ (k ≤ lhs.type.width ∨ 0 ≤ x)

instance (lhs : AllocatedLeafRegister) (k : Nat) (x : Int) : Decidable (QuotientInRange lhs k x) :=
  inferInstanceAs (Decidable (_ ∨ _ ∨ _ ∧ (_ ∨ _)))

theorem emitSignBit_extends (hruns : Runs e start regs) {l : Literal}
    (hlhs : Reads e regs (.register lhs.registerIndex) l) (hl : l.value < 2 ^ l.width)
    (hwidth : l.width = lhs.type.width) (hpos : 0 < lhs.type.width) (hsigned : lhs.type.signed = true) :
    ∃ regs', Extends e (emitSignBit e lhs).2 start regs regs' ∧
      Reads (emitSignBit e lhs).2 regs' (.register (emitSignBit e lhs).1)
        ⟨if l.denote true < 0 then 1 else 0, 1⟩ := by
  obtain ⟨regs', hextends, hbit⟩ :=
    @shr_extends _ _ _ hruns _ _ lhs.type.signed hlhs (lhs.type.width - 1) 1
  have hrange : Within (lhs.type.width - 1) (l.denote true) := within_denote hl (by omega)
  rw [hsigned, wordAt_sign hrange] at hbit
  rw [emitSignBit, hsigned]
  rw [hsigned] at hextends
  exact ⟨regs', hextends, hbit⟩

/-- The sum that is shifted: exact modulo two to its width. -/
theorem divShiftSource_signed (hruns : Runs e start regs) {l : Literal}
    (hlhs : Reads e regs (.register lhs.registerIndex) l) (hl : l.value < 2 ^ l.width)
    (hwidth : l.width = lhs.type.width) (hpos : 0 < lhs.type.width)
    (hsigned : lhs.type.signed = true) {k : Nat} (hk : 0 < k) (hk64 : k ≤ 64) :
    ∃ source regs', divShiftSource e lhs (2 ^ k) = .ok source ∧
      Extends e source.2 start regs regs' ∧
      Reads source.2 regs' (.register source.1)
        ⟨truncate (l.denote true + if l.denote true < 0 then 2 ^ k - 1 else 0)
          (lhs.type.width + 1), lhs.type.width + 1⟩ := by
  have hone : 1 < 2 ^ k := Nat.one_lt_two_pow (by omega)
  have hsize : 2 ^ k ≤ 2 ^ 64 := Nat.pow_le_pow_right (by decide) hk64
  have hmp : mpToSizeT (2 ^ k - 1) = .ok (2 ^ k - 1) := by
    have hle : ¬ 2 ^ k - 1 > sizeMax := by
      simp only [sizeMax]
      omega
    rw [mpToSizeT, if_neg hle]
  have hcast := natCast_two_pow_sub_one k
  have heq : divShiftSource e lhs (2 ^ k) =
      .ok (((emitSignBit e lhs).2.mux21 k (.register (emitSignBit e lhs).1) (sizeLiteral 0) false
        (sizeLiteral (2 ^ k - 1)) false).2.binaryOp .add (lhs.type.width + 1)
          (.register lhs.registerIndex) true
          (.register ((emitSignBit e lhs).2.mux21 k (.register (emitSignBit e lhs).1)
            (sizeLiteral 0) false (sizeLiteral (2 ^ k - 1)) false).1) false) := by
    rw [divShiftSource, if_pos (by rw [hsigned]; simpa using hone), log2_two_pow, hmp, hsigned]
    rfl
  obtain ⟨regs1, hextends1, hsign⟩ := emitSignBit_extends hruns hlhs hl hwidth hpos hsigned
  have hbit : (if l.denote true < 0 then 1 else 0) < 2 := by split <;> decide
  obtain ⟨regs2, hextends2, hconstant⟩ := mux21_signed_extends hextends1.runs hsign hbit
    (Reads.literal _ _ ⟨0, 64⟩) (Reads.literal _ _ ⟨2 ^ k - 1, 64⟩) false false k
  obtain ⟨regs3, hextends3, hsum⟩ := @binaryOp_extends _ _ _ hextends2.runs .add _ _ true false _ _
    (lhs.type.width + 1) (hextends2.keeps (hextends1.keeps hlhs)) hconstant trivial
  -- The constant fits the register that is as wide as the shift amount
  have hvalue : Literal.denote ⟨truncate (if (if l.denote true < 0 then 1 else 0) = 0
      then Literal.denote ⟨0, 64⟩ false else Literal.denote ⟨2 ^ k - 1, 64⟩ false) k, k⟩ false
      = if l.denote true < 0 then 2 ^ k - 1 else 0 := by
    rw [denote_false, denote_false, denote_false]
    split
    · next hneg =>
      rw [if_neg Nat.one_ne_zero]
      show (truncate ((2 ^ k - 1 : Nat) : Int) k : Int) = _
      rw [truncate_natCast_of_lt (by omega), hcast]
    · rw [if_pos rfl]
      show (truncate ((0 : Nat) : Int) k : Int) = 0
      rw [truncate_natCast_of_lt (Nat.two_pow_pos k)]
      rfl
  rw [hvalue] at hsum
  exact ⟨_, regs3, heq, (hextends1.trans hextends2).trans hextends3, hsum⟩

/-- The shift that leaves the quotient in the written register. -/
theorem divShift_writes (hruns : Runs e start regs) {source r k : Nat} {l : Literal} (signed : Bool)
    (hr : r < e.table.length) (hsource : Reads e regs (.register source) l) :
    ∃ regs', Writes e (e.push { binaryOperation .shr (.register source) signed (sizeLiteral k) false
        with dst := [.register r] }) start regs regs' (· = r) ∧
      Reads (e.push { binaryOperation .shr (.register source) signed (sizeLiteral k) false
        with dst := [.register r] }) regs' (.register r)
        ⟨truncate (l.denote signed / 2 ^ k) (e.table.desc r).width, (e.table.desc r).width⟩ := by
  have hdef : BinaryOpType.shr.Defined (Literal.denote ⟨k, 64⟩ false) := by
    rw [denote_false]
    exact Int.natCast_nonneg _
  obtain ⟨regs', hwrites, hreads⟩ :=
    @binaryOp_writes _ _ _ hruns .shr _ _ signed false _ _ r hr hsource
      (Reads.literal _ _ ⟨k, 64⟩) hdef
  refine ⟨regs', hwrites, ?_⟩
  rw [exactBinaryOp, denote_false, Int.toNat_natCast] at hreads
  exact hreads

/-- The quotient that the emitted operations compute. -/
def shiftedQuotient (lhs : AllocatedLeafRegister) (k : Nat) (x : Int) : Int :=
  if lhs.type.signed = true ∧ 0 < k then
    Literal.denote ⟨truncate (x + if x < 0 then 2 ^ k - 1 else 0) (lhs.type.width + 1),
      lhs.type.width + 1⟩ true / 2 ^ k
  else x / 2 ^ k

/-- The operations for a quotient, when the constant to add fits `size_t`. -/
theorem generateDiv_writes (hruns : Runs e start regs) {writtenRegister : AllocatedLeafRegister}
    (hlhs : lhs.AllocatedIn e.table) (hwritten : writtenRegister.AllocatedIn e.table)
    (hpos : 0 < lhs.type.width) {k : Nat} (hk : lhs.type.signed = false ∨ k ≤ 64) :
    ∃ e' regs', generateDiv e lhs (2 ^ k) writtenRegister = .ok (some e') ∧
      Writes e e' start regs regs' (· = writtenRegister.registerIndex) ∧
      Reads e' regs' (.register writtenRegister.registerIndex)
        ⟨truncate (shiftedQuotient lhs k (lhs.typedValue regs)) writtenRegister.type.width,
          writtenRegister.type.width⟩ := by
  have hreads : Reads e regs (.register lhs.registerIndex) (lhs.bits regs) := hlhs.reads regs
  have hbound : (lhs.bits regs).value < 2 ^ (lhs.bits regs).width :=
    Nat.mod_lt _ (Nat.two_pow_pos _)
  by_cases hadd : lhs.type.signed = true ∧ 0 < k
  · have hk64 : k ≤ 64 := hk.resolve_left (by rw [hadd.1]; decide)
    obtain ⟨source, regs1, hsource, hextends, hsum⟩ :=
      divShiftSource_signed hruns hreads hbound rfl hpos hadd.1 hadd.2 hk64
    have hwritten' := hwritten.grow hextends.grows
    obtain ⟨regs2, hwrites, hresult⟩ :=
      divShift_writes (k := k) hextends.runs true hwritten'.lt hsum
    refine ⟨_, regs2, ?_, (hextends.writes _).trans hwrites, ?_⟩
    · rw [generateDiv, if_pos (isPow2_two_pow k), hsource, log2_two_pow, hadd.1]
      rfl
    · rw [hwritten'.width] at hresult
      rw [shiftedQuotient, if_pos hadd, AllocatedLeafRegister.typedValue, hadd.1]
      exact hresult
  · -- The register is shifted as it is
    have hsource : divShiftSource e lhs (2 ^ k) = .ok (lhs.registerIndex, e) := by
      rw [divShiftSource, if_neg]
      · rfl
      · rw [Bool.and_eq_true, decide_eq_true_iff]
        rintro ⟨hs, hone⟩
        refine hadd ⟨hs, Nat.pos_of_ne_zero ?_⟩
        rintro rfl
        exact absurd hone (by decide)
    obtain ⟨regs2, hwrites, hresult⟩ :=
      divShift_writes (k := k) hruns lhs.type.signed hwritten.lt hreads
    refine ⟨_, regs2, ?_, hwrites, ?_⟩
    · rw [generateDiv, if_pos (isPow2_two_pow k), hsource, log2_two_pow]
      rfl
    · rw [hwritten.width] at hresult
      rw [shiftedQuotient, if_neg hadd]
      exact hresult

/-- The constant to add does not fit `size_t`. -/
theorem generateDiv_error (hsigned : lhs.type.signed = true) {k : Nat} (hk : 64 < k)
    (writtenRegister : AllocatedLeafRegister) :
    generateDiv e lhs (2 ^ k) writtenRegister
      = .error (.runtimeError "Value too large to convert to integer") := by
  have hone : 1 < 2 ^ k := Nat.one_lt_two_pow (by omega)
  have hsize : 2 ^ 65 ≤ 2 ^ k := Nat.pow_le_pow_right (by decide) hk
  have hmp : mpToSizeT (2 ^ k - 1) = .error (.runtimeError "Value too large to convert to integer")
      := by
    rw [mpToSizeT, if_pos (by simp only [sizeMax]; omega)]
  rw [generateDiv, if_pos (isPow2_two_pow k), divShiftSource,
    if_pos (by rw [hsigned]; simpa using hone), log2_two_pow, hmp]
  rfl

/-- The sum has room for the constant. -/
theorem shiftedQuotient_eq {k : Nat} {x : Int} (hx : InType lhs.type.signed lhs.type.width x)
    (hpos : 0 < lhs.type.width) (hk : k ≤ lhs.type.width ∨ 0 ≤ x) :
    shiftedQuotient lhs k x = x.tdiv (2 ^ k) := by
  rw [shiftedQuotient]
  split
  · next hadd =>
    rw [hadd.1] at hx
    have hwithin : Within (lhs.type.width - 1) x := hx
    have hlow := hwithin.1
    have hhigh := hwithin.2
    have hpow : (2 : Int) ^ lhs.type.width = 2 * 2 ^ (lhs.type.width - 1) := by
      rw [← pow_succ', Nat.sub_add_cancel hpos]
    by_cases hneg : x < 0
    · have hle : (2 : Int) ^ k ≤ 2 ^ lhs.type.width := two_pow_le (hk.resolve_right (by omega))
      have hkpos := two_pow_pos k
      rw [if_pos hneg, denote_truncate_of_within ⟨by omega, by omega⟩, tdiv_two_pow_of_neg hneg]
    · rw [if_neg hneg, add_zero, denote_truncate_of_within ⟨by omega, by omega⟩,
        tdiv_two_pow_of_nonneg (by omega)]
  · next hadd =>
    by_cases hneg : x < 0
    · have hsigned : lhs.type.signed = true := by
        by_contra hs
        rw [Bool.not_eq_true] at hs
        rw [hs] at hx
        exact absurd hx.1 (by omega)
      have hzero : k = 0 := by
        by_contra hk0
        exact hadd ⟨hsigned, Nat.pos_of_ne_zero hk0⟩
      rw [hzero, pow_zero, Int.ediv_one, Int.tdiv_one]
    · exact (tdiv_two_pow_of_nonneg (by omega) k).symm

/-- The sum loses the top bit of the constant, and the shift leaves the sign. -/
theorem shiftedQuotient_beyond {k : Nat} {x : Int} (hsigned : lhs.type.signed = true)
    (hx : Within (lhs.type.width - 1) x) (hneg : x < 0) (hpos : 0 < lhs.type.width)
    (hk : lhs.type.width < k) : shiftedQuotient lhs k x = -1 ∧ x.tdiv (2 ^ k) = 0 := by
  have hlow := hx.1
  have hpow : (2 : Int) ^ lhs.type.width = 2 * 2 ^ (lhs.type.width - 1) := by
    rw [← pow_succ', Nat.sub_add_cancel hpos]
  have hposw := two_pow_pos (lhs.type.width - 1)
  have hle : (2 : Int) ^ lhs.type.width ≤ 2 ^ k := two_pow_le hk.le
  constructor
  · rw [shiftedQuotient, if_pos ⟨hsigned, by omega⟩, if_pos hneg]
    have hmod : x + (2 ^ k - 1) ≡ x - 1 [ZMOD 2 ^ (lhs.type.width + 1)] := by
      have hdvd : (2 : Int) ^ (lhs.type.width + 1) ∣ 2 ^ k := pow_dvd_pow 2 hk
      apply Int.ModEq.symm
      apply Int.modEq_iff_dvd.mpr
      rwa [show x + (2 ^ k - 1) - (x - 1) = 2 ^ k by ring]
    rw [truncate_eq_truncate_iff.mpr hmod,
      denote_truncate_of_within (show Within lhs.type.width (x - 1) from ⟨by omega, by omega⟩)]
    exact ediv_eq_neg_one (by omega) (by omega)
  · rw [← neg_neg x, Int.neg_tdiv, Int.tdiv_eq_zero_of_lt (by omega) (by omega)]
    rfl

end Quotient

/-! ## Remainders -/

section Remainder

variable {e : Emission} {start regs : Nat → Nat} {lhs : AllocatedLeafRegister}

theorem land_mask (v k : Nat) : Int.land v ((2 ^ k - 1 : Nat) : Int) = (v % 2 ^ k : Nat) := by
  rw [natCast_two_pow_sub_one, land_two_pow_sub_one]
  push_cast
  rfl

/-- The mask that `x & (2 ^ k - 1)` reads. -/
theorem reads_mask (e : Emission) (regs : Nat → Nat) (k : Nat) :
    ∃ l : Literal, Reads e regs (mpLiteral (2 ^ k - 1)) l ∧ l.denote false = (2 ^ k - 1 : Nat) :=
  ⟨_, Reads.literal _ _ _, denote_false _⟩

/-- A register is masked in place. -/
theorem mask_writes (hruns : Runs e start regs) {source r v w : Nat} (k : Nat)
    (hr : r < e.table.length) (hsource : Reads e regs (.register source) ⟨v, w⟩) :
    ∃ regs', Writes e (e.push { binaryOperation .and (.register source) false
        (mpLiteral (2 ^ k - 1)) false with dst := [.register r] }) start regs regs' (· = r) ∧
      Reads (e.push { binaryOperation .and (.register source) false (mpLiteral (2 ^ k - 1)) false
        with dst := [.register r] }) regs' (.register r)
        ⟨truncate (v % 2 ^ k : Nat) (e.table.desc r).width, (e.table.desc r).width⟩ := by
  obtain ⟨mask, hmask, hvalue⟩ := reads_mask e regs k
  obtain ⟨regs', hwrites, hresult⟩ :=
    @binaryOp_writes _ _ _ hruns .and _ _ false false _ _ r hr hsource hmask trivial
  refine ⟨regs', hwrites, ?_⟩
  rw [exactBinaryOp, hvalue, denote_false, land_mask] at hresult
  exact hresult

/-- One is added to a register. -/
theorem addOne_writes (hruns : Runs e start regs) {r v w : Nat}
    (hr : Reads e regs (.register r) ⟨v, w⟩) :
    ∃ regs', Writes e (e.push { binaryOperation .add (.register r) false (sizeLiteral 1) false with
        dst := [.register r] }) start regs regs' (· = r) ∧
      Reads (e.push { binaryOperation .add (.register r) false (sizeLiteral 1) false with
        dst := [.register r] }) regs' (.register r) ⟨truncate (v + 1) w, w⟩ := by
  obtain ⟨hlt, hwidth, -⟩ := Reads.register_iff.mp hr
  obtain ⟨regs', hwrites, hresult⟩ :=
    @binaryOp_writes _ _ _ hruns .add _ _ false false _ _ r hlt hr (Reads.literal _ _ ⟨1, 64⟩)
      trivial
  rw [hwidth, denote_false, denote_false, exactBinaryOp] at hresult
  exact ⟨regs', hwrites, hresult⟩

theorem lnot_eq (x : Int) : Int.lnot x = -x - 1 := by
  cases x with
  | ofNat n =>
      show Int.negSucc n = -(n : Int) - 1
      omega
  | negSucc n =>
      show (n : Int) = -Int.negSucc n - 1
      omega

/-- Inverting a truncated integer and adding one negates it. -/
theorem truncate_lnot_add_one (x : Int) (w : Nat) :
    truncate ((truncate (Int.lnot x) w : Nat) + 1) w = truncate (-x) w := by
  apply truncate_eq_truncate_iff.mpr
  have hadd : (truncate (Int.lnot x) w : Int) + 1 ≡ Int.lnot x + 1 [ZMOD 2 ^ w] :=
    (truncate_modEq _ w).add_right 1
  rwa [lnot_eq x, show -x - 1 + 1 = -x by ring, ← lnot_eq x] at hadd

/-- The register of the inverted dividend: one is added, the sum is masked and negated. -/
theorem negatedMod_writes (hruns : Runs e start regs) {r w : Nat} {x : Int} (k : Nat)
    (hr : Reads e regs (.register r) ⟨truncate (Int.lnot x) w, w⟩) :
    let addOne := { binaryOperation .add (.register r) false (sizeLiteral 1) false with
      dst := [.register r] }
    let andMask := { binaryOperation .and (.register r) false (mpLiteral (2 ^ k - 1)) false with
      dst := [.register r] }
    let invert := { unaryOperation .invert (.register r) false with dst := [.register r] }
    let negated := (((e.push addOne).push andMask).push invert).push addOne
    ∃ regs', Writes e negated start regs regs' (· = r) ∧
      Reads negated regs' (.register r)
        ⟨truncate (-((truncate (-x) w % 2 ^ k % 2 ^ w : Nat) : Int)) w, w⟩ := by
  intro addOne andMask invert negated
  obtain ⟨regs1, hwrites1, hsum⟩ := addOne_writes hruns hr
  rw [truncate_lnot_add_one] at hsum
  obtain ⟨hlt, hwidth, -⟩ := Reads.register_iff.mp hsum
  obtain ⟨regs2, hwrites2, hmasked⟩ := mask_writes hwrites1.runs k hlt hsum
  rw [hwidth, truncate_natCast] at hmasked
  obtain ⟨regs3, hwrites3, hinverted⟩ := unaryOp_writes hwrites2.runs .invert hlt hmasked false
  have hwidth3 : ((((e.push addOne).push andMask).table.desc r)).width = w := hwidth
  rw [hwidth3, denote_false, exactUnaryOp] at hinverted
  obtain ⟨regs4, hwrites4, hnegated⟩ := addOne_writes hwrites3.runs hinverted
  rw [truncate_lnot_add_one] at hnegated
  exact ⟨regs4, ((hwrites1.trans hwrites2).trans hwrites3).trans hwrites4, hnegated⟩

/-- Both candidates, read as the `Select` reads them. -/
theorem negatedMod_denote {x : Int} {w : Nat} (hneg : x < 0) (hx : Within (w - 1) x) (hpos : 0 < w)
    (k : Nat) :
    Literal.denote ⟨truncate (-((truncate (-x) (w + 2) % 2 ^ k % 2 ^ (w + 2) : Nat) : Int)) (w + 2),
      w + 2⟩ true = x.tmod (2 ^ k) := by
  have hpow : (2 : Int) ^ (w + 2) = 8 * 2 ^ (w - 1) := by
    rw [show w + 2 = w - 1 + 3 by omega, pow_add]
    ring
  have hhalf : (2 : Int) ^ (w + 1) = 4 * 2 ^ (w - 1) := by
    rw [show w + 1 = w - 1 + 2 by omega, pow_add]
    ring
  have hlow := hx.1
  have hposw := two_pow_pos (w - 1)
  have hvalue : (truncate (-x) (w + 2) : Int) = -x := natCast_truncate_of_lt (by omega) (by omega)
  have hmod : ((truncate (-x) (w + 2) % 2 ^ k : Nat) : Int) = -x % 2 ^ k := by
    push_cast
    rw [hvalue]
  have hnonneg := Int.emod_nonneg (-x) (two_pow_pos k).ne'
  have hle : -x % 2 ^ k ≤ -x := by
    have hquotient := Int.ediv_nonneg (show 0 ≤ -x by omega) (two_pow_pos k).le
    have hprod := mul_nonneg (two_pow_pos k).le hquotient
    have hsplit := Int.emod_add_mul_ediv (-x) (2 ^ k)
    omega
  have hfits : ((truncate (-x) (w + 2) % 2 ^ k % 2 ^ (w + 2) : Nat) : Int) = -x % 2 ^ k := by
    rw [Int.natCast_mod, hmod]
    push_cast
    exact Int.emod_eq_of_lt hnonneg (by omega)
  rw [hfits, tmod_two_pow_of_neg hneg]
  exact denote_truncate_of_within (show Within (w + 1) _ from ⟨by omega, by omega⟩)

theorem tmod_of_nonneg {l : Literal} {signed : Bool} (h : 0 ≤ l.denote signed) (k : Nat)
    (hl : l.value < 2 ^ l.width) :
    ((l.value % 2 ^ k : Nat) : Int) = (l.denote signed).tmod (2 ^ k) := by
  have hvalue : l.denote signed = l.value := by
    cases hs : l.negative signed with
    | false => exact Literal.denote_of_not_negative hs
    | true =>
        have hfit : (l.value : Int) < 2 ^ l.width := by exact_mod_cast hl
        rw [Literal.denote_of_negative hs] at h
        omega
  rw [hvalue, Int.tmod_eq_emod_of_nonneg (Int.natCast_nonneg _)]
  push_cast
  rfl

/-- The operations for a remainder. -/
theorem generateMod_writes (hruns : Runs e start regs) {writtenRegister : AllocatedLeafRegister}
    (hlhs : lhs.AllocatedIn e.table) (hwritten : writtenRegister.AllocatedIn e.table)
    (hpos : 0 < lhs.type.width) (k : Nat) :
    ∃ e' regs', generateMod e lhs (2 ^ k) writtenRegister = some e' ∧
      Writes e e' start regs regs' (· = writtenRegister.registerIndex) ∧
      Reads e' regs' (.register writtenRegister.registerIndex)
        ⟨truncate ((lhs.typedValue regs).tmod (2 ^ k)) writtenRegister.type.width,
          writtenRegister.type.width⟩ := by
  have hreads : Reads e regs (.register lhs.registerIndex) (lhs.bits regs) := hlhs.reads regs
  have hbound : (lhs.bits regs).value < 2 ^ (lhs.bits regs).width :=
    Nat.mod_lt _ (Nat.two_pow_pos _)
  cases hsigned : lhs.type.signed with
  | false =>
      obtain ⟨regs1, hwrites, hresult⟩ := mask_writes hruns k hwritten.lt hreads
      refine ⟨_, regs1, ?_, hwrites, ?_⟩
      · rw [generateMod, if_pos (isPow2_two_pow k), hsigned]
        rfl
      · have hnonneg : 0 ≤ (lhs.bits regs).denote false := by
          rw [denote_false]
          exact Int.natCast_nonneg _
        rw [hwritten.width] at hresult
        rw [AllocatedLeafRegister.typedValue, hsigned, ← tmod_of_nonneg hnonneg k hbound]
        exact hresult
  | true =>
      have hdenote : lhs.typedValue regs = (lhs.bits regs).denote true := by
        rw [AllocatedLeafRegister.typedValue, hsigned]
      rw [hdenote]
      have hx : Within (lhs.type.width - 1) ((lhs.bits regs).denote true) :=
        within_denote hbound (Nat.sub_add_cancel hpos).symm
      obtain ⟨regs1, hextends1, hsign⟩ := emitSignBit_extends hruns hreads hbound rfl hpos hsigned
      obtain ⟨mask, hmask, hvalue⟩ := reads_mask (emitSignBit e lhs).2 regs1 k
      obtain ⟨regs2, hextends2, hpositive⟩ := @binaryOp_extends _ _ _ hextends1.runs .and _ _ false
        false _ _ writtenRegister.type.width (hextends1.keeps hreads) hmask trivial
      rw [exactBinaryOp, hvalue, denote_false, land_mask] at hpositive
      obtain ⟨regs3, hextends3, hinverted⟩ := unaryOp_extends hextends2.runs .invert
        (hextends2.keeps (hextends1.keeps hreads)) true (lhs.type.width + 2)
      rw [exactUnaryOp] at hinverted
      obtain ⟨regs4, hwrites4, hnegated⟩ := negatedMod_writes hextends3.runs k hinverted
      have hbefore := (hextends1.trans hextends2).trans hextends3
      -- The sign bit and the other candidate are not in the register that is written over
      have hsign' := hwrites4.keeps (hextends3.keeps (hextends2.keeps hsign)) (by
        rintro r ⟨rfl⟩ heq
        have hlt := (hextends2.keeps hsign).allocated _ rfl
        exact absurd heq hlt.ne)
      have hpositive' := hwrites4.keeps (hextends3.keeps hpositive) (by
        rintro r ⟨rfl⟩ heq
        have hlt := hpositive.allocated _ rfl
        exact absurd heq hlt.ne)
      have hwritten' := hwritten.grow (hbefore.grows.trans hwrites4.grows)
      have hbit : (if (lhs.bits regs).denote true < 0 then 1 else 0) < 2 := by
        split <;> decide
      obtain ⟨regs5, hwrites5, hresult⟩ := mux21_writes hwrites4.runs hwritten'.lt hsign' hbit
        hpositive' hnegated false true
      -- The register that is written over is none of those before
      have hnew : ∀ r, r < e.table.length → ¬ r = _ := fun r hr =>
        (Nat.lt_of_lt_of_le hr (hextends1.trans hextends2).grows.length_le).ne
      have hwrites := (hbefore.trans_writes hwrites4 hnew _).trans hwrites5
      have hvalue' : truncate (if (if (lhs.bits regs).denote true < 0 then 1 else 0) = 0 then
            Literal.denote ⟨truncate (((lhs.bits regs).value % 2 ^ k : Nat) : Int)
              writtenRegister.type.width, writtenRegister.type.width⟩ false
          else Literal.denote ⟨truncate (-((truncate (-(lhs.bits regs).denote true)
              (lhs.type.width + 2) % 2 ^ k % 2 ^ (lhs.type.width + 2) : Nat) : Int))
              (lhs.type.width + 2), lhs.type.width + 2⟩ true) writtenRegister.type.width
          = truncate (((lhs.bits regs).denote true).tmod (2 ^ k)) writtenRegister.type.width := by
        by_cases hneg : (lhs.bits regs).denote true < 0
        · rw [if_pos hneg, if_neg Nat.one_ne_zero, negatedMod_denote hneg hx hpos]
        · have hnonneg : 0 ≤ (lhs.bits regs).denote true := Int.not_lt.mp hneg
          rw [if_neg hneg, if_pos rfl, denote_false, truncate_natCast_of_lt (truncate_lt _ _),
            tmod_of_nonneg hnonneg k hbound]
      rw [hwritten'.width, hvalue'] at hresult
      refine ⟨_, regs5, ?_, hwrites, hresult⟩
      rw [generateMod, if_pos (isPow2_two_pow k), if_pos hsigned, hsigned]

end Remainder

/-! ## Against compile time -/

/-- The emitted operations leave in the written register what `ImplementBinaryOp` computes. -/
def AgreesWithCompileTime (table : RegisterTable) (regs : Nat → Nat) (opType : BinaryOpType)
    (lhs : AllocatedLeafRegister) (rhs : Literal) (writtenRegister : AllocatedLeafRegister) :
    Prop :=
  ∃ e regs' v, generateDivMod ⟨table, []⟩ opType lhs rhs.value writtenRegister = .ok (some e) ∧
    runCombinational e.table regs e.ops = some regs' ∧
    implementBinaryOp (lhs.bits regs) rhs writtenRegister.type.width lhs.type.signed false opType
      = .ok v ∧
    (writtenRegister.bits regs').value = v

section Agrees

variable {table : RegisterTable} {regs : Nat → Nat} {lhs writtenRegister : AllocatedLeafRegister}
  {rhs : Literal}

theorem bits_wellFormed (regs : Nat → Nat) (hpos : 0 < lhs.type.width)
    (hmax : lhs.type.width ≤ maxRegisterBitWidth) : (lhs.bits regs).WellFormed := by
  simp only [maxRegisterBitWidth] at hmax
  refine ⟨Nat.mod_lt _ (Nat.two_pow_pos _), hpos, ?_⟩
  show lhs.type.width ≤ sizeMax
  simp only [sizeMax]
  omega

/-- Within the widths of registers the compile-time result is the exact one. -/
theorem implementBinaryOp_divMod (hpos : 0 < lhs.type.width)
    (hmax : lhs.type.width ≤ maxRegisterBitWidth) {d : Nat} (hd : 0 < d)
    (hdmax : d ≤ maxRegisterBitWidth) (hrhs : rhs.WellFormed) (hrmax : rhs.width ≤ maxRegisterBitWidth)
    (hvalue : 0 < rhs.value) {opType : BinaryOpType} (htype : opType = .div ∨ opType = .mod) :
    implementBinaryOp (lhs.bits regs) rhs d lhs.type.signed false opType
      = .ok (truncate (exactBinaryOp opType (lhs.typedValue regs) rhs.value) d) := by
  have hdef : opType.Defined (rhs.denote false) := by
    have hcast : (0 : Int) < rhs.value := by exact_mod_cast hvalue
    rw [denote_false]
    rcases htype with rfl | rfl <;> exact hcast
  have hwidth : (lhs.bits regs).width = lhs.type.width := rfl
  have hexact := implementBinaryOp_exact_iff (bits_wellFormed regs hpos hmax) hrhs lhs.type.signed false
    hd opType hdef
  rw [denote_false, ← truncate_eq] at hexact
  apply hexact.mpr
  simp only [maxRegisterBitWidth] at hmax hdmax hrmax
  have hsource : sourceWidth (lhs.bits regs) rhs d opType = d := by
    rcases htype with rfl | rfl <;> rfl
  have hwiden : (lhs.bits regs).Widenable lhs.type.signed d :=
    ⟨fun _ => by omega, fun _ => by omega⟩
  rcases htype with rfl | rfl
  · exact ⟨hwiden, ⟨nofun, nofun⟩, fun _ => by omega⟩
  · exact ⟨hwiden, ⟨nofun, nofun⟩, fun _ => by omega⟩

theorem agrees_of_reads {e : Emission} {regs' : Nat → Nat} {opType : BinaryOpType} {q : Int}
    (hgen : generateDivMod ⟨table, []⟩ opType lhs rhs.value writtenRegister = .ok (some e))
    (hwrites : Writes ⟨table, []⟩ e regs regs regs' (· = writtenRegister.registerIndex))
    (hresult : Reads e regs' (.register writtenRegister.registerIndex)
      ⟨truncate q writtenRegister.type.width, writtenRegister.type.width⟩)
    (hconst : implementBinaryOp (lhs.bits regs) rhs writtenRegister.type.width lhs.type.signed false
      opType = .ok (truncate (exactBinaryOp opType (lhs.typedValue regs) rhs.value)
        writtenRegister.type.width)) :
    AgreesWithCompileTime table regs opType lhs rhs writtenRegister ↔
      q ≡ exactBinaryOp opType (lhs.typedValue regs) rhs.value
        [ZMOD 2 ^ writtenRegister.type.width] := by
  have hrun := hwrites.runs e.table List.prefix_rfl
  have hbits := AllocatedLeafRegister.bits_of_reads hresult rfl
  rw [AgreesWithCompileTime, hgen, hconst]
  constructor
  · rintro ⟨e', regs'', v, he, hrun', hv, hagrees⟩
    cases he
    rw [hrun] at hrun'
    cases hrun'
    cases hv
    rw [hbits] at hagrees
    exact truncate_eq_truncate_iff.mp hagrees
  · intro hmod
    refine ⟨e, regs', _, rfl, hrun, rfl, ?_⟩
    rw [hbits]
    exact truncate_eq_truncate_iff.mpr hmod

/-- Run time and compile time agree on every remainder, and on the quotients whose constant is
    neither beyond `size_t` nor, for a negative dividend, beyond its range. -/
theorem generateDivMod_agrees_iff (table : RegisterTable) (regs : Nat → Nat)
    (opType : BinaryOpType) (htype : opType = .div ∨ opType = .mod)
    (lhs writtenRegister : AllocatedLeafRegister) (rhs : Literal) (k : Nat)
    (hlhs : lhs.AllocatedIn table) (hwritten : writtenRegister.AllocatedIn table)
    (hpos : 0 < lhs.type.width) (hmax : lhs.type.width ≤ maxRegisterBitWidth)
    (hd : 0 < writtenRegister.type.width) (hdmax : writtenRegister.type.width ≤ maxRegisterBitWidth)
    (hrhs : rhs.WellFormed) (hrmax : rhs.width ≤ maxRegisterBitWidth) (hk : rhs.value = 2 ^ k) :
    AgreesWithCompileTime table regs opType lhs rhs writtenRegister ↔
      opType = .mod ∨ QuotientInRange lhs k (lhs.typedValue regs) := by
  have hconst := @implementBinaryOp_divMod regs _ _ hpos hmax _ hd hdmax hrhs hrmax
    (by rw [hk]; exact Nat.two_pow_pos k) _ htype
  have hcast : ((2 ^ k : Nat) : Int) = 2 ^ k := by push_cast; rfl
  have hx : InType lhs.type.signed lhs.type.width (lhs.typedValue regs) :=
    inType_denote_mk _ (Nat.mod_lt _ (Nat.two_pow_pos _)) hpos
  rcases htype with rfl | rfl
  · -- A quotient
    have hnot : ¬ BinaryOpType.div = .mod := (by intro h; cases h)
    simp only [hnot, false_or]
    by_cases hsize : lhs.type.signed = false ∨ k ≤ 64
    · obtain ⟨e, regs', hgen, hwrites, hresult⟩ := generateDiv_writes (runs_nil table regs)
        hlhs hwritten hpos hsize
      have hgen' : generateDivMod ⟨table, []⟩ .div lhs rhs.value writtenRegister = .ok (some e) := by
        rw [hk, generateDivMod, hgen]
      rw [agrees_of_reads hgen' hwrites hresult hconst, hk, hcast, exactBinaryOp]
      by_cases hbeyond : lhs.type.width < k ∧ lhs.typedValue regs < 0
      · -- The shift leaves minus one, the quotient is zero
        have hsigned : lhs.type.signed = true := by
          by_contra hs
          rw [Bool.not_eq_true] at hs
          rw [hs] at hx
          exact absurd hx.1 (Int.not_le.mpr hbeyond.2)
        rw [hsigned] at hx
        obtain ⟨hshifted, hquotient⟩ :=
          shiftedQuotient_beyond hsigned hx hbeyond.2 hpos hbeyond.1
        rw [hshifted, hquotient]
        apply iff_of_false
        · intro hmod
          have hdvd := Int.modEq_iff_dvd.mp hmod
          have htwo : (2 : Int) ∣ 2 ^ writtenRegister.type.width := dvd_pow_self 2 hd.ne'
          exact absurd (htwo.trans hdvd) (by decide)
        · rintro (hs | rfl | ⟨-, hle | hle⟩)
          · rw [hsigned] at hs
            cases hs
          · exact absurd hbeyond.1 (Nat.not_lt_zero _)
          · omega
          · omega
      · have hle : k ≤ lhs.type.width ∨ 0 ≤ lhs.typedValue regs := by omega
        rw [shiftedQuotient_eq hx hpos hle]
        apply iff_of_true (Int.ModEq.refl _)
        rcases hsize with hs | hk64
        · exact .inl hs
        · exact .inr (.inr ⟨hk64, hle⟩)
    · -- The constant does not fit `size_t`
      have hsigned : lhs.type.signed = true := by
        by_contra hs
        rw [Bool.not_eq_true] at hs
        exact hsize (.inl hs)
      have hk64 : 64 < k := by omega
      apply iff_of_false
      · rintro ⟨e, regs', v, hgen, -⟩
        rw [hk, generateDivMod, generateDiv_error hsigned hk64] at hgen
        cases hgen
      · rintro (hs | rfl | ⟨hle, -⟩)
        · exact hsize (.inl hs)
        · omega
        · omega
  · -- A remainder
    obtain ⟨e, regs', hgen, hwrites, hresult⟩ := generateMod_writes (runs_nil table regs)
      hlhs hwritten hpos k
    have hgen' : generateDivMod ⟨table, []⟩ .mod lhs rhs.value writtenRegister = .ok (some e) := by
      rw [hk, generateDivMod, hgen]
    rw [agrees_of_reads hgen' hwrites hresult hconst, hk, hcast]
    exact iff_of_true (Int.ModEq.refl _) (.inl rfl)

/-- The theorem at `-3 / 8` in four bits, where the quotient is zero. -/
theorem generateDivMod_agrees_neg_three_eight :
    AgreesWithCompileTime [localRegister 4, localRegister 4] (fun _ => 13) .div ⟨⟨true, 4⟩, 0⟩
      ⟨8, 4⟩ ⟨⟨true, 4⟩, 1⟩ :=
  (generateDivMod_agrees_iff [localRegister 4, localRegister 4] (fun _ => 13) .div (.inl rfl)
    ⟨⟨true, 4⟩, 0⟩ ⟨⟨true, 4⟩, 1⟩ ⟨8, 4⟩ 3 (by decide) (by decide) (by decide) (by decide)
    (by decide) (by decide) ⟨by decide, by decide, by decide⟩ (by decide) rfl).mpr
    (.inr (.inr (.inr ⟨by decide, .inl (by decide)⟩)))

/-- `-3 / 32` in four bits: the emitted operations leave minus one, not zero. -/
theorem generateDiv_neg_three_thirtyTwo :
    ¬ AgreesWithCompileTime [localRegister 4, localRegister 4] (fun _ => 13) .div ⟨⟨true, 4⟩, 0⟩
      ⟨32, 6⟩ ⟨⟨true, 4⟩, 1⟩ := by
  have hemitted : (generateDivMod ⟨[localRegister 4, localRegister 4], []⟩ .div ⟨⟨true, 4⟩, 0⟩ 32
      ⟨⟨true, 4⟩, 1⟩).toOption.bind (fun emitted => emitted.bind fun e =>
        (runCombinational e.table (fun _ => 13) e.ops).map (· 1)) = some 15 := by
    decide +kernel
  have hconst : implementBinaryOp ⟨13, 4⟩ ⟨32, 6⟩ 4 true false .div = .ok 0 := by decide +kernel
  rintro ⟨e, regs', v, hgen, hrun, hv, hagrees⟩
  have hzero : v = 0 := Except.ok.inj (hv.symm.trans hconst)
  have hfifteen : regs' 1 = 15 := by
    have hmap : (runCombinational e.table (fun _ => 13) e.ops).map (· 1) = some 15 := by
      rw [hgen] at hemitted
      exact hemitted
    rw [hrun] at hmap
    exact Option.some.inj hmap
  have hbits : regs' 1 % 2 ^ 4 = v := hagrees
  rw [hfifteen, hzero] at hbits
  exact nomatch hbits

end Agrees

end Kanagawa.Generate
