/-
  Kanagawa.Optimize.DecomposeAddSub

  Wide additions and subtractions, word by word (`optimize.cpp`,
  `DecomposeAddSub`).

  The operands are cut into words.  Each word but the first takes the carry (or
  borrow) of the word below as an extra least significant bit, and each but the
  last has an extra most significant bit, which is what it carries.  With
  carry-select every word is computed for both values of the carry and a chain
  of multiplexers picks the right ones.

  The width of a word and the choice of carry-select come from an estimate of
  path lengths in floating point; they are arguments here.
-/
import Kanagawa.IR.Combinational
import Kanagawa.Lib.Carry

namespace Kanagawa.Optimize

open IR Lib.Carry Lib.Except

/-! ## The pass -/

/-- `DecomposeAddSubConfig`. -/
structure DecomposeAddSubConfig where
  carrySelect : Bool
  internalWordWidth : Nat
  deriving Repr, DecidableEq

/-- `SourceOperand(const mp_int&)`: a literal as wide as its value (`GetMpWidth`). -/
def mpLiteral (value : Nat) : SourceOperand :=
  .literal ⟨value, if value = 0 then 1 else value.log2 + 1⟩

/-- The word of an operand at an offset, with the given bit below it if there is one. -/
def extractWord (e : Emission) (src : SourceOperand) (signExtend : Bool)
    (wordStartOffset wordSize : Nat) (concatLsb : Option SourceOperand) : Nat × Emission :=
  let extract := e.binaryOp .shr wordSize src signExtend (sizeLiteral wordStartOffset) false
  match concatLsb with
  | none => extract
  | some lsb => extract.2.concat [lsb, .register extract.1]

/-- Where a word stands. -/
structure WordPosition where
  startOffset : Nat
  size : Nat
  isFirstWord : Bool
  isLastWord : Bool

/-- The sum or difference of the words at a position, without the bit that carried into it.
    `concatLsb` is the bit below the word of the second operand. -/
def wordSum (e : Emission) (isAdd : Bool) (src0 : SourceOperand) (signExtend0 : Bool)
    (src1 : SourceOperand) (signExtend1 : Bool) (position : WordPosition)
    (concatLsb : SourceOperand) : Except Failure (Nat × Emission) := do
  let lsb := fun (s : SourceOperand) => if position.isFirstWord then none else some s
  let word0 := extractWord e src0 signExtend0 position.startOffset position.size
    (lsb (.literal ⟨if isAdd then 1 else 0, 1⟩))
  let word1 := extractWord word0.2 src1 signExtend1 position.startOffset position.size
    (lsb concatLsb)
  let width := (word1.2.table.desc word0.1).width
  assert (width = (word1.2.table.desc word1.1).width)
  let addSubOutputWidth := width + if position.isLastWord then 0 else 1
  -- Words are sign extended on the last iteration only, where that changes nothing
  let addSub := word1.2.binaryOp (if isAdd then .add else .sub) addSubOutputWidth
    (.register word0.1) position.isLastWord (.register word1.1) position.isLastWord
  if position.isFirstWord then return addSub
  else
    return addSub.2.binaryOp .shr (addSubOutputWidth - 1) (.register addSub.1) false
      (sizeLiteral 1) false

/-- A sum with a bit above it becomes the output word and the carry or borrow bit. -/
def splitWord (e : Emission) (addSubOutput : Nat) :
    Except Failure ((Nat × Option Nat) × Emission) := do
  let modifiedAddSubOutputWidth := (e.table.desc addSubOutput).width
  assert (0 < modifiedAddSubOutputWidth)
  let mask := 2 ^ (modifiedAddSubOutputWidth - 1) - 1
  let word := e.binaryOp .and (modifiedAddSubOutputWidth - 1) (.register addSubOutput) false
    (mpLiteral mask) false
  let carryBorrow := word.2.binaryOp .shr 1 (.register addSubOutput) false
    (sizeLiteral (modifiedAddSubOutputWidth - 1)) false
  return ((word.1, some carryBorrow.1), carryBorrow.2)

/-- One iteration of the speculative loop: the output word and, except for the last word, the
    carry or borrow bit. -/
def addSubWord (e : Emission) (isAdd : Bool) (src0 : SourceOperand) (signExtend0 : Bool)
    (src1 : SourceOperand) (signExtend1 : Bool) (position : WordPosition)
    (concatLsb : SourceOperand) : Except Failure ((Nat × Option Nat) × Emission) := do
  let addSubOutput ← wordSum e isAdd src0 signExtend0 src1 signExtend1 position concatLsb
  if position.isLastWord then return ((addSubOutput.1, none), addSubOutput.2)
  else splitWord addSubOutput.2 addSubOutput.1

/-- `assert` that a register was set, and the register. -/
def validRegister (registerIndex : Option Nat) : Except Failure Nat :=
  match registerIndex with
  | some r => .ok r
  | none => .error .assertion

/-- What the loop over words carries: the operations, the carry or borrow bit of the last
    word, and the sources and entries of the final gather. -/
structure AddSubState where
  emission : Emission
  carryBorrowBit : Option Nat
  words : List SourceOperand
  entries : List GatherEntry

/-- Chooses between the words computed for both values of the carry. -/
def selectWord (e : Emission) (carryBorrowBit : Nat) (isLastWord : Bool)
    (word0 word1 : Nat × Option Nat) : Except Failure ((Nat × Option Nat) × Emission) := do
  let width := (e.table.desc word0.1).width
  assert (width = (e.table.desc word1.1).width)
  let selected := e.mux21 width (.register carryBorrowBit) (.register word0.1) false
    (.register word1.1) false
  if isLastWord then return ((selected.1, some carryBorrowBit), selected.2)
  else
    let carry0 ← validRegister word0.2
    let carry1 ← validRegister word1.2
    let carry := selected.2.mux21 1 (.register carryBorrowBit) (.register carry0) false
      (.register carry1) false
    return ((selected.1, some carry.1), carry.2)

/-- The word at a position: computed for the carry there is, or chosen from the words computed
    for both values of the carry. -/
def chosenWord (config : DecomposeAddSubConfig) (isAdd : Bool) (src0 : SourceOperand)
    (signExtend0 : Bool) (src1 : SourceOperand) (signExtend1 : Bool) (state : AddSubState)
    (position : WordPosition) : Except Failure ((Nat × Option Nat) × Emission) :=
  if config.carrySelect && !position.isFirstWord then do
    let word0 ← addSubWord state.emission isAdd src0 signExtend0 src1 signExtend1 position
      (.literal ⟨0, 1⟩)
    let word1 ← addSubWord word0.2 isAdd src0 signExtend0 src1 signExtend1 position
      (.literal ⟨1, 1⟩)
    let carryBorrowBit ← validRegister state.carryBorrowBit
    selectWord word1.2 carryBorrowBit position.isLastWord word0.1 word1.1
  else do
    -- The first word has no carry to append
    let concatLsb ← if position.isFirstWord then pure (.literal ⟨0, 1⟩)
      else SourceOperand.register <$> validRegister state.carryBorrowBit
    addSubWord state.emission isAdd src0 signExtend0 src1 signExtend1 position concatLsb

/-- One result word. -/
def addSubStep (config : DecomposeAddSubConfig) (isAdd : Bool) (src0 : SourceOperand)
    (signExtend0 : Bool) (src1 : SourceOperand) (signExtend1 : Bool) (dstWidth numWords : Nat)
    (state : AddSubState) (wordIndex : Nat) : Except Failure AddSubState := do
  let wordStartOffset := wordIndex * config.internalWordWidth
  let wordEndOffset := min dstWidth (wordStartOffset + config.internalWordWidth)
  let position : WordPosition :=
    ⟨wordStartOffset, wordEndOffset - wordStartOffset, wordIndex = 0, wordIndex = numWords - 1⟩
  assert (0 < position.size)
  assert (!position.isLastWord || wordEndOffset = dstWidth)
  let chosen ← chosenWord config isAdd src0 signExtend0 src1 signExtend1 state position
  return { emission := chosen.2
           carryBorrowBit := chosen.1.2
           words := state.words ++ [.register chosen.1.1]
           entries := state.entries ++ [⟨0, wordStartOffset, position.size⟩] }

/-- `DecomposeAddSub`, with what `ComputeDecomposeAddSubConfig` returned: the register table
    and the operations that replace the original one, if it is decomposed. -/
def decomposeAddSub (config : Option DecomposeAddSubConfig) (table : RegisterTable)
    (op : Operation) : Except Failure (Option Emission) :=
  match op.opcode, op.src, op.dst with
  | .binaryOp type, [src0, src1], [dst] => do
      assert (type = .add || type = .sub)
      match config with
      | none => return none
      | some config => do
          let dstWidth := dst.width table
          let numWords := (dstWidth + config.internalWordWidth - 1) / config.internalWordWidth
          assert (1 < numWords)
          let final ← (List.range numWords).foldlM
            (addSubStep config (type = .add) src0 (op.shouldSignExtend 0) src1
              (op.shouldSignExtend 1) dstWidth numWords)
            ⟨⟨table, []⟩, none, [], []⟩
          return some (final.emission.push
            { opcode := .gather final.entries, src := final.words, dst := [dst] })
  | _, _, _ => .error .assertion

/-! ## Words of the operands -/

section Words

open Emission

variable {e : Emission} {start regs : Nat → Nat}

/-- A word, and the bit below it if there is one. -/
theorem extractWord_extends (hruns : Runs e start regs) {s : SourceOperand} {l : Literal}
    (signed : Bool) (hs : Reads e regs s l) (o w : Nat) (lsb : Option SourceOperand) {c : Nat}
    (hc : c < 2) (hlsb : ∀ b, lsb = some b → Reads e regs b ⟨c, 1⟩) :
    ∃ regs', Extends e (extractWord e s signed o w lsb).2 start regs regs' ∧
      Reads (extractWord e s signed o w lsb).2 regs'
        (.register (extractWord e s signed o w lsb).1)
        (if lsb.isSome then ⟨2 * wordAt (l.denote signed) o w + c, w + 1⟩
         else ⟨wordAt (l.denote signed) o w, w⟩) := by
  obtain ⟨regs1, hextends, hreads⟩ := @shr_extends _ _ _ hruns _ _ signed hs o w
  cases lsb with
  | none => exact ⟨regs1, hextends, hreads⟩
  | some b =>
      obtain ⟨regs2, hextends', hreads'⟩ := concat_extends hextends.runs
        (hextends.keeps (hlsb b rfl)) hc hreads (wordAt_lt _ _ _)
      exact ⟨regs2, hextends.trans hextends', hreads'⟩

end Words

/-! ### Arithmetic of one word -/

theorem exactBinaryOp_eq_combine (isAdd : Bool) (x y : Int) :
    exactBinaryOp (if isAdd then .add else .sub) x y = combine (!isAdd) x y := by
  cases isAdd <;> rfl

theorem combine_modEq {sub : Bool} {x x' y y' : Int} {m : Int} (hx : x ≡ x' [ZMOD m])
    (hy : y ≡ y' [ZMOD m]) : combine sub x y ≡ combine sub x' y' [ZMOD m] := by
  cases sub with
  | false => exact hx.add hy
  | true => exact hx.sub hy

/-- Dropping the lowest bit of a truncated integer. -/
theorem wordAt_truncate_one (x : Int) (m : Nat) :
    wordAt (truncate x (m + 1)) 1 m = truncate (x / 2) m := by
  rw [wordAt, truncate_eq_truncate_iff, natCast_truncate, pow_one, Int.ModEq]
  have hpow : (2 : Int) ^ (m + 1) = 2 * 2 ^ m := by ring
  have hsplit := Int.emod_add_mul_ediv x (2 ^ (m + 1))
  rw [hpow] at hsplit ⊢
  have hhalf : x / 2 = x % (2 * 2 ^ m) / 2 + 2 ^ m * (x / (2 * 2 ^ m)) := by
    rw [← Int.add_mul_ediv_left _ _ (by decide : (2 : Int) ≠ 0)]
    congr 1
    linarith
  rw [hhalf, Int.add_mul_emod_self_left]

/-- The low bits of a truncated integer. -/
theorem truncate_land_mask (x : Int) (w : Nat) :
    truncate (Int.land (truncate x (w + 1)) ((2 ^ w - 1 : Nat) : Int)) w = truncate x w := by
  have hmask : ((2 ^ w - 1 : Nat) : Int) = 2 ^ w - 1 := by
    push_cast [Nat.one_le_two_pow]
    rfl
  rw [hmask, Lib.Bits.land_two_pow_sub_one, truncate_eq_truncate_iff, natCast_truncate]
  have hdvd : (2 : Int) ^ w ∣ 2 ^ (w + 1) := pow_dvd_pow 2 (Nat.le_succ w)
  exact (Int.mod_modEq _ _).trans ((Int.mod_modEq x _).of_dvd hdvd)

/-! ## One word -/

section AddSubWord

open Emission

variable {e : Emission} {start regs : Nat → Nat} {isAdd : Bool}

/-- The sum or difference of two words, as wide as they are when they are the last ones and
    one bit wider otherwise. -/
theorem sum_extends (hruns : Runs e start regs) {r0 r1 x y n : Nat} (isLastWord : Bool)
    (h0 : Reads e regs (.register r0) ⟨x, n⟩) (h1 : Reads e regs (.register r1) ⟨y, n⟩) :
    let sum := e.binaryOp (if isAdd then .add else .sub) (n + if isLastWord then 0 else 1)
      (.register r0) isLastWord (.register r1) isLastWord
    ∃ regs', Extends e sum.2 start regs regs' ∧
      Reads sum.2 regs' (.register sum.1)
        ⟨truncate (combine (!isAdd) x y) (n + if isLastWord then 0 else 1),
          n + if isLastWord then 0 else 1⟩ := by
  intro sum
  have hdef : BinaryOpType.Defined (if isAdd then .add else .sub)
      (Literal.denote ⟨y, n⟩ isLastWord) := by
    cases isAdd <;> exact trivial
  obtain ⟨regs', hextends, hreads⟩ :=
    binaryOp_extends hruns (n + if isLastWord then 0 else 1) h0 h1 (s := isLastWord) hdef
  refine ⟨regs', hextends, ?_⟩
  have hvalue : truncate (exactBinaryOp (if isAdd then .add else .sub)
      (Literal.denote ⟨x, n⟩ isLastWord) (Literal.denote ⟨y, n⟩ isLastWord))
        (n + if isLastWord then 0 else 1)
      = truncate (combine (!isAdd) x y) (n + if isLastWord then 0 else 1) := by
    rw [exactBinaryOp_eq_combine]
    cases isLastWord with
    | false => rw [denote_false, denote_false]
    | true =>
        -- The destination is as wide as the words, so their signs do not matter
        exact truncate_eq_truncate_iff.mpr
          (combine_modEq (denote_modEq_value ⟨x, n⟩ true) (denote_modEq_value ⟨y, n⟩ true))
  rw [hvalue] at hreads
  exact hreads

/-- Removing the bit that carried into a word. -/
theorem discard_extends (hruns : Runs e start regs) {r n : Nat} {x : Int}
    (h : Reads e regs (.register r) ⟨truncate x (n + 1), n + 1⟩) :
    ∃ regs', Extends e (e.binaryOp .shr n (.register r) false (sizeLiteral 1) false).2 start regs
        regs' ∧
      Reads (e.binaryOp .shr n (.register r) false (sizeLiteral 1) false).2 regs'
        (.register (e.binaryOp .shr n (.register r) false (sizeLiteral 1) false).1)
        ⟨truncate (x / 2) n, n⟩ := by
  obtain ⟨regs', hextends, hreads⟩ := @shr_extends _ _ _ hruns _ _ false h 1 n
  rw [denote_false, wordAt_truncate_one] at hreads
  exact ⟨regs', hextends, hreads⟩

/-- Taking the word of a sum that has one more bit. -/
theorem mask_extends (hruns : Runs e start regs) {r w : Nat} {x : Int}
    (h : Reads e regs (.register r) ⟨truncate x (w + 1), w + 1⟩) :
    ∃ regs', Extends e (e.binaryOp .and w (.register r) false (mpLiteral (2 ^ w - 1)) false).2
        start regs regs' ∧
      Reads (e.binaryOp .and w (.register r) false (mpLiteral (2 ^ w - 1)) false).2 regs'
        (.register (e.binaryOp .and w (.register r) false (mpLiteral (2 ^ w - 1)) false).1)
        ⟨truncate x w, w⟩ := by
  have hmask : Reads e regs (mpLiteral (2 ^ w - 1))
      ⟨2 ^ w - 1, if 2 ^ w - 1 = 0 then 1 else (2 ^ w - 1).log2 + 1⟩ := Reads.literal e regs _
  have hdef : BinaryOpType.and.Defined (Literal.denote
      ⟨2 ^ w - 1, if 2 ^ w - 1 = 0 then 1 else (2 ^ w - 1).log2 + 1⟩ false) := trivial
  obtain ⟨regs', hextends, hreads⟩ := binaryOp_extends hruns w h hmask (s := false) hdef
  rw [denote_false, denote_false, exactBinaryOp, truncate_land_mask] at hreads
  exact ⟨regs', hextends, hreads⟩

/-- The carry of a word is its top bit. -/
theorem carry_extends (hruns : Runs e start regs) {r w : Nat} {sub : Bool} {a b c : Int} {o : Nat}
    (hc : 0 ≤ c ∧ c < 2)
    (h : Reads e regs (.register r) ⟨truncate (wordResult sub a b o w c) (w + 1), w + 1⟩) :
    ∃ regs', Extends e (e.binaryOp .shr 1 (.register r) false (sizeLiteral w) false).2 start regs
        regs' ∧
      Reads (e.binaryOp .shr 1 (.register r) false (sizeLiteral w) false).2 regs'
        (.register (e.binaryOp .shr 1 (.register r) false (sizeLiteral w) false).1)
        ⟨(carryOut sub w (wordResult sub a b o w c)).toNat, 1⟩ := by
  obtain ⟨regs', hextends, hreads⟩ := @shr_extends _ _ _ hruns _ _ false h w 1
  have htop := wordAt_truncate_top (wordResult sub a b o w c) w
  rw [bit_eq_carryOut hc] at htop
  rw [denote_false] at hreads
  refine ⟨regs', hextends, ?_⟩
  rw [← htop, Int.toNat_natCast]
  exact hreads

/-- What is known of a word and of the carry into it when its operations are emitted. -/
structure WordContext (e : Emission) (start regs : Nat → Nat) (src0 src1 concatLsb : SourceOperand)
    (a b : Literal) (position : WordPosition) (c : Nat) : Prop where
  runs : Runs e start regs
  src0_reads : Reads e regs src0 a
  src1_reads : Reads e regs src1 b
  carry_lt : c < 2
  carry_first : position.isFirstWord = true → c = 0
  carry_reads : position.isFirstWord = false → Reads e regs concatLsb ⟨c, 1⟩

variable {src0 src1 concatLsb : SourceOperand} {a b : Literal} {s0 s1 : Bool}
  {position : WordPosition} {c : Nat}

theorem wordSum_extends (h : WordContext e start regs src0 src1 concatLsb a b position c) :
    ∃ output regs', wordSum e isAdd src0 s0 src1 s1 position concatLsb = .ok output ∧
      Extends e output.2 start regs regs' ∧
      Reads output.2 regs' (.register output.1)
        ⟨truncate (wordResult (!isAdd) (a.denote s0) (b.denote s1) position.startOffset
            position.size c) (position.size + if position.isLastWord then 0 else 1),
          position.size + if position.isLastWord then 0 else 1⟩ := by
  cases hf : position.isFirstWord with
  | true =>
      -- The sum of the bare words
      have hzero : c = 0 := h.carry_first hf
      obtain ⟨regs1, hext1, hreads0⟩ := extractWord_extends h.runs s0 h.src0_reads
        position.startOffset position.size none h.carry_lt nofun
      obtain ⟨regs2, hext2, hreads1⟩ := extractWord_extends hext1.runs s1
        (hext1.keeps h.src1_reads) position.startOffset position.size none h.carry_lt nofun
      have hreads0 := hext2.keeps hreads0
      obtain ⟨regs3, hext3, hreads⟩ := @sum_extends _ _ _ isAdd hext2.runs _ _ _ _ _
        position.isLastWord hreads0 hreads1
      have hw0 := (Reads.register_iff.mp hreads0).2.1
      have hw1 := (Reads.register_iff.mp hreads1).2.1
      simp only [Option.isSome_none, Bool.false_eq_true, if_false] at hw0 hw1
      let word0 := extractWord e src0 s0 position.startOffset position.size none
      let word1 := extractWord word0.2 src1 s1 position.startOffset position.size none
      refine ⟨word1.2.binaryOp (if isAdd then .add else .sub)
        (position.size + if position.isLastWord then 0 else 1) (.register word0.1)
        position.isLastWord (.register word1.1) position.isLastWord, regs3, ?_,
        (hext1.trans hext2).trans hext3, ?_⟩
      · simp only [wordSum, hf, if_true, hw0, hw1, decide_true]
        rfl
      · subst hzero
        rw [natCast_wordAt, natCast_wordAt] at hreads
        simpa [wordResult] using hreads
  | false =>
      -- Both words are shifted up by the bit that carries
      have hbit : (if isAdd then 1 else 0) < 2 := by split <;> decide
      obtain ⟨regs1, hext1, hreads0⟩ := extractWord_extends h.runs s0 h.src0_reads
        position.startOffset position.size
        (some (.literal ⟨if isAdd then 1 else 0, 1⟩)) hbit (by
          rintro b' ⟨⟩
          exact Reads.literal e regs _)
      obtain ⟨regs2, hext2, hreads1⟩ := extractWord_extends hext1.runs s1
        (hext1.keeps h.src1_reads) position.startOffset position.size
        (some concatLsb) h.carry_lt (by
          rintro b' ⟨⟩
          exact hext1.keeps (h.carry_reads hf))
      have hreads0 := hext2.keeps hreads0
      obtain ⟨regs3, hext3, hreads⟩ := @sum_extends _ _ _ isAdd hext2.runs _ _ _ _ _
        position.isLastWord hreads0 hreads1
      have hw0 := (Reads.register_iff.mp hreads0).2.1
      have hw1 := (Reads.register_iff.mp hreads1).2.1
      simp only [Option.isSome_some, if_true] at hw0 hw1
      have hn : position.size + 1 + (if position.isLastWord then 0 else 1)
          = (position.size + if position.isLastWord then 0 else 1) + 1 := by omega
      rw [hn] at hext3 hreads
      obtain ⟨regs4, hext4, hreads⟩ := discard_extends hext3.runs hreads
      let word0 := extractWord e src0 s0 position.startOffset position.size
        (some (.literal ⟨if isAdd then 1 else 0, 1⟩))
      let word1 := extractWord word0.2 src1 s1 position.startOffset position.size (some concatLsb)
      let sum := word1.2.binaryOp (if isAdd then .add else .sub)
        ((position.size + if position.isLastWord then 0 else 1) + 1) (.register word0.1)
        position.isLastWord (.register word1.1) position.isLastWord
      refine ⟨sum.2.binaryOp .shr (position.size + if position.isLastWord then 0 else 1)
        (.register sum.1) false (sizeLiteral 1) false, regs4, ?_,
        ((hext1.trans hext2).trans hext3).trans hext4, ?_⟩
      · simp only [wordSum, hf, Bool.false_eq_true, if_false, hw0, hw1, decide_true, hn,
          Nat.add_sub_cancel]
        rfl
      · have hcarry := @appended_carry (!isAdd) c
          (a.denote s0 / 2 ^ position.startOffset % 2 ^ position.size)
          (b.denote s1 / 2 ^ position.startOffset % 2 ^ position.size)
          ⟨Int.natCast_nonneg c, by exact_mod_cast h.carry_lt⟩
        have hlsb : (if isAdd = true then (1 : Int) else 0) = if (!isAdd) = true then 0 else 1 := by
          cases isAdd <;> rfl
        push_cast at hreads
        rw [natCast_wordAt, natCast_wordAt, hlsb, hcarry] at hreads
        exact hreads

/-- A word of the result when `c` is carried into it, and what it carries if it is not the
    last one. -/
structure WordOutput (e : Emission) (regs : Nat → Nat) (position : WordPosition) (sub : Bool)
    (x y : Int) (c : Nat) (word : Nat × Option Nat) : Prop where
  reads : Reads e regs (.register word.1)
    ⟨truncate (wordResult sub x y position.startOffset position.size c) position.size,
      position.size⟩
  carry : position.isLastWord = false → ∃ r, word.2 = some r ∧ Reads e regs (.register r)
    ⟨(carryOut sub position.size
      (wordResult sub x y position.startOffset position.size c)).toNat, 1⟩

theorem WordOutput.keeps {e e' : Emission} {start regs regs' : Nat → Nat} {sub : Bool} {x y : Int}
    {word : Nat × Option Nat} (hext : Extends e e' start regs regs')
    (h : WordOutput e regs position sub x y c word) :
    WordOutput e' regs' position sub x y c word :=
  ⟨hext.keeps h.reads, fun hlast => by
    obtain ⟨r, hr, hreads⟩ := h.carry hlast
    exact ⟨r, hr, hext.keeps hreads⟩⟩

theorem addSubWord_extends (h : WordContext e start regs src0 src1 concatLsb a b position c) :
    ∃ output regs', addSubWord e isAdd src0 s0 src1 s1 position concatLsb = .ok output ∧
      Extends e output.2 start regs regs' ∧
      WordOutput output.2 regs' position (!isAdd) (a.denote s0) (b.denote s1) c output.1 := by
  obtain ⟨sum, regs1, hsum, hext1, hreads⟩ := @wordSum_extends _ _ _ isAdd _ _ _ _ _ s0
    s1 _ _ h
  cases hlast : position.isLastWord with
  | true =>
      rw [hlast] at hreads
      refine ⟨((sum.1, none), sum.2), regs1, ?_, hext1, hreads, fun h => by simp [hlast] at h⟩
      simp only [addSubWord, hsum, ok_bind, hlast, if_true]
      rfl
  | false =>
      rw [hlast] at hreads
      have hreads : Reads sum.2 regs1 (.register sum.1) ⟨truncate (wordResult (!isAdd)
          (a.denote s0) (b.denote s1) position.startOffset position.size c) (position.size + 1),
          position.size + 1⟩ := hreads
      have hwidth : (sum.2.table.desc sum.1).width = position.size + 1 :=
        (Reads.register_iff.mp hreads).2.1
      obtain ⟨regs2, hext2, hword⟩ := mask_extends hext1.runs hreads
      obtain ⟨regs3, hext3, hcarry⟩ := carry_extends hext2.runs
        ⟨Int.natCast_nonneg c, by exact_mod_cast h.carry_lt⟩ (hext2.keeps hreads)
      let word := sum.2.binaryOp .and position.size (.register sum.1) false
        (mpLiteral (2 ^ position.size - 1)) false
      let carryBorrow := word.2.binaryOp .shr 1 (.register sum.1) false
        (sizeLiteral position.size) false
      refine ⟨((word.1, some carryBorrow.1), carryBorrow.2), regs3, ?_,
        (hext1.trans hext2).trans hext3, hext3.keeps hword, fun _ => ⟨_, rfl, hcarry⟩⟩
      simp only [addSubWord, hsum, ok_bind, hlast, Bool.false_eq_true, if_false, splitWord, hwidth,
        Nat.add_sub_cancel, assert_of_true (decide_eq_true (Nat.succ_pos position.size))]
      rfl

/-- Of two words computed for both values of the carry, the multiplexers choose the one for
    the carry there is. -/
theorem selectWord_extends (hruns : Runs e start regs) {r : Nat} {sub : Bool} {x y : Int}
    (hr : Reads e regs (.register r) ⟨c, 1⟩) (hc : c < 2) {word0 word1 : Nat × Option Nat}
    (h0 : WordOutput e regs position sub x y 0 word0)
    (h1 : WordOutput e regs position sub x y 1 word1) :
    ∃ output regs', selectWord e r position.isLastWord word0 word1 = .ok output ∧
      Extends e output.2 start regs regs' ∧
      WordOutput output.2 regs' position sub x y c output.1 := by
  have hw0 := (Reads.register_iff.mp h0.reads).2.1
  have hw1 := (Reads.register_iff.mp h1.reads).2.1
  have hchoice : ∀ f : Nat → Nat, (if c = 0 then f 0 else f 1) = f c := by
    intro f
    match c, hc with
    | 0, _ => rfl
    | 1, _ => rfl
  obtain ⟨regs1, hext1, hword⟩ := mux21_extends hruns hr hc h0.reads h1.reads (truncate_lt _ _)
    (truncate_lt _ _)
  rw [hchoice fun c => truncate (wordResult sub x y position.startOffset position.size c)
    position.size] at hword
  let selected := e.mux21 position.size (.register r) (.register word0.1) false
    (.register word1.1) false
  cases hlast : position.isLastWord with
  | true =>
      refine ⟨((selected.1, some r), selected.2), regs1, ?_, hext1, hword,
        fun h => by simp [hlast] at h⟩
      simp only [selectWord, hw0, hw1, decide_true, if_true]
      rfl
  | false =>
      obtain ⟨carry0, hcarry0, hreads0⟩ := h0.carry hlast
      obtain ⟨carry1, hcarry1, hreads1⟩ := h1.carry hlast
      have hlt : ∀ d : Nat, d < 2 → (carryOut sub position.size
          (wordResult sub x y position.startOffset position.size d)).toNat < 2 ^ 1 := by
        intro d hd
        have h := (@carryOut_range sub x y _ position.startOffset
          position.size ⟨Int.natCast_nonneg d, by exact_mod_cast hd⟩).2
        omega
      obtain ⟨regs2, hext2, hcarry⟩ := mux21_extends hext1.runs (hext1.keeps hr) hc
        (hext1.keeps hreads0) (hext1.keeps hreads1) (hlt 0 (by decide)) (hlt 1 (by decide))
      rw [hchoice fun c => (carryOut sub position.size
        (wordResult sub x y position.startOffset position.size c)).toNat] at hcarry
      let carry := selected.2.mux21 1 (.register r) (.register carry0) false (.register carry1)
        false
      refine ⟨((selected.1, some carry.1), carry.2), regs2, ?_, hext1.trans hext2,
        hext2.keeps hword, fun _ => ⟨_, rfl, hcarry⟩⟩
      simp only [selectWord, hw0, hw1, hcarry0, hcarry1, validRegister, Bool.false_eq_true,
        if_false, ok_bind]
      rfl

end AddSubWord

/-! ## The loop over words -/

section Loop

open Emission

variable {table : RegisterTable} {regs0 : Nat → Nat} {src0 src1 : SourceOperand} {a b : Literal}
  {s0 s1 isAdd : Bool} {config : DecomposeAddSubConfig} {dstWidth : Nat}

/-- What the loop knows after `k` words: the gather of the words so far is the low part of the
    result, and there is a bit that carries into the next word. -/
structure WordsInvariant (table : RegisterTable) (regs0 : Nat → Nat) (src0 src1 : SourceOperand)
    (a b : Literal) (sub : Bool) (x y : Int) (dstWidth wordWidth k : Nat) (state : AddSubState)
    (regs : Nat → Nat) (values : List Literal) : Prop where
  extend : Extends ⟨table, []⟩ state.emission regs0 regs0 regs
  src0_reads : Reads state.emission regs src0 a
  src1_reads : Reads state.emission regs src1 b
  words : List.Forall₂ (Reads state.emission regs) state.words values
  entries : state.entries.length = values.length
  gathered : gatherBits state.entries values
    = truncate (combine sub x y) (min dstWidth (k * wordWidth))
  carry : 0 < k → k * wordWidth < dstWidth → ∃ r c, state.carryBorrowBit = some r ∧
    Reads state.emission regs (.register r) ⟨c, 1⟩ ∧ c < 2 ∧ CarryAt sub x y (k * wordWidth) c

/-- Gathering one more word puts it above the bits gathered so far. -/
theorem gatherBits_append {entries : List GatherEntry} {values : List Literal}
    (hlength : entries.length = values.length) {x : Int} {o w : Nat}
    (hgathered : gatherBits entries values = truncate x o) :
    gatherBits (entries ++ [⟨0, o, w⟩]) (values ++ [⟨truncate (x / 2 ^ o) w, w⟩])
      = truncate x (o + w) := by
  rw [gatherBits, List.zip_append hlength, List.foldl_append]
  rw [gatherBits] at hgathered
  rw [hgathered]
  simp only [List.zip_cons_cons, List.zip_nil_right, List.foldl_cons, List.foldl_nil,
    Nat.shiftRight_zero]
  rw [truncate_natCast_of_lt (truncate_lt _ _), Nat.or_comm,
    ← Nat.shiftLeft_add_eq_or_of_lt (truncate_lt _ _), Nat.shiftLeft_eq]
  have hcast : ((truncate (x / 2 ^ o) w * 2 ^ o + truncate x o : Nat) : Int)
      = truncate x (o + w) := by
    push_cast
    rw [natCast_truncate, natCast_truncate, natCast_truncate, emod_pow_add]
  exact_mod_cast hcast

/-- The number of words of `DecomposeAddSub`. -/
theorem lt_numWords_iff {wordWidth k : Nat} (hw : 0 < wordWidth) :
    k < (dstWidth + wordWidth - 1) / wordWidth ↔ k * wordWidth < dstWidth := by
  rw [← Nat.succ_le_iff, Nat.le_div_iff_mul_le hw, Nat.succ_mul]
  omega

/-- The word an iteration chooses, from the carry that the words below left. -/
theorem chosenWord_extends {sub : Bool} (hsub : sub = !isAdd) {k : Nat} {state : AddSubState}
    {regs : Nat → Nat} {values : List Literal} {position : WordPosition}
    (h : WordsInvariant table regs0 src0 src1 a b sub (a.denote s0) (b.denote s1) dstWidth
      config.internalWordWidth k state regs values)
    (hfirst : position.isFirstWord = decide (k = 0))
    (hk : k * config.internalWordWidth < dstWidth) :
    ∃ output regs', ∃ c : Nat,
      chosenWord config isAdd src0 s0 src1 s1 state position = .ok output ∧
      Extends state.emission output.2 regs0 regs regs' ∧ c < 2 ∧
      CarryAt sub (a.denote s0) (b.denote s1) (k * config.internalWordWidth) c ∧
      WordOutput output.2 regs' position sub (a.denote s0) (b.denote s1) c output.1 := by
  subst hsub
  by_cases hzero : k = 0
  · -- Nothing is carried into the first word
    have hf : position.isFirstWord = true := by rw [hfirst, decide_eq_true hzero]
    have hcontext : WordContext state.emission regs0 regs src0 src1 (.literal ⟨0, 1⟩) a b position
        0 := ⟨h.extend.runs, h.src0_reads, h.src1_reads, by decide, fun _ => rfl,
          fun _ => Reads.literal _ _ _⟩
    obtain ⟨output, regs', hrun, hext, hword⟩ := @addSubWord_extends _ _ _ isAdd _ _ _ _ _ s0
      s1 _ _ hcontext
    refine ⟨output, regs', 0, ?_, hext, by decide, ?_, hword⟩
    · simp only [chosenWord, hf, Bool.not_true, Bool.and_false, Bool.false_eq_true, if_false, if_true]
      exact hrun
    · rw [hzero, Nat.zero_mul]
      exact carryAt_zero
  · have hf : position.isFirstWord = false := by rw [hfirst, decide_eq_false hzero]
    obtain ⟨r, c, hr, hreads, hc, hcarry⟩ := h.carry (by omega) hk
    cases hselect : config.carrySelect with
    | false =>
        have hcontext : WordContext state.emission regs0 regs src0 src1 (.register r) a b position
            c := ⟨h.extend.runs, h.src0_reads, h.src1_reads, hc, by simp [hf], fun _ => hreads⟩
        obtain ⟨output, regs', hrun, hext, hword⟩ := @addSubWord_extends _ _ _ isAdd _ _ _ _ _
          s0 s1 _ _ hcontext
        refine ⟨output, regs', c, ?_, hext, hc, hcarry, hword⟩
        simp only [chosenWord, hselect, hf, hr, Bool.false_and, Bool.false_eq_true, if_false,
          validRegister]
        exact hrun
    | true =>
        -- Both values of the carry are tried, and the multiplexers pick the right one
        have hcontext0 : WordContext state.emission regs0 regs src0 src1 (.literal ⟨0, 1⟩) a b
            position 0 := ⟨h.extend.runs, h.src0_reads, h.src1_reads, by decide, fun _ => rfl,
              fun _ => Reads.literal _ _ _⟩
        obtain ⟨word0, regs1, hrun0, hext1, hword0⟩ := @addSubWord_extends _ _ _ isAdd _ _ _ _ _
          s0 s1 _ _ hcontext0
        have hcontext1 : WordContext word0.2 regs0 regs1 src0 src1 (.literal ⟨1, 1⟩) a b
            position 1 := ⟨hext1.runs, hext1.keeps h.src0_reads, hext1.keeps h.src1_reads,
              by decide, by simp [hf], fun _ => Reads.literal _ _ _⟩
        obtain ⟨word1, regs2, hrun1, hext2, hword1⟩ := @addSubWord_extends _ _ _ isAdd _ _ _ _ _
          s0 s1 _ _ hcontext1
        obtain ⟨output, regs3, hrun, hext3, hword⟩ := selectWord_extends hext2.runs
          (hext2.keeps (hext1.keeps hreads)) hc (hword0.keeps hext2) hword1
        refine ⟨output, regs3, c, ?_, (hext1.trans hext2).trans hext3, hc, hcarry, hword⟩
        simp only [chosenWord, hselect, hf, hr, Bool.not_false, Bool.and_self, if_true, hrun0,
          hrun1, ok_bind, validRegister]
        exact hrun

/-- One more word. -/
theorem addSubStep_preserves {k : Nat} {state : AddSubState} {regs : Nat → Nat}
    {values : List Literal} (hw : 0 < config.internalWordWidth)
    (hk : k * config.internalWordWidth < dstWidth)
    (h : WordsInvariant table regs0 src0 src1 a b (!isAdd) (a.denote s0) (b.denote s1) dstWidth
      config.internalWordWidth k state regs values) :
    ∃ state' regs' values',
      addSubStep config isAdd src0 s0 src1 s1 dstWidth
        ((dstWidth + config.internalWordWidth - 1) / config.internalWordWidth) state k
          = .ok state' ∧
      WordsInvariant table regs0 src0 src1 a b (!isAdd) (a.denote s0) (b.denote s1) dstWidth
        config.internalWordWidth (k + 1) state' regs' values' := by
  have hlastIff : k = (dstWidth + config.internalWordWidth - 1) / config.internalWordWidth - 1 ↔
      ¬ (k + 1) * config.internalWordWidth < dstWidth := by
    rw [← lt_numWords_iff hw]
    rw [← lt_numWords_iff hw] at hk
    omega
  have hsucc : (k + 1) * config.internalWordWidth
      = k * config.internalWordWidth + config.internalWordWidth := Nat.succ_mul _ _
  let size := min dstWidth (k * config.internalWordWidth + config.internalWordWidth)
    - k * config.internalWordWidth
  have hsizeDef : size = min dstWidth (k * config.internalWordWidth + config.internalWordWidth)
    - k * config.internalWordWidth := rfl
  have hsize : k * config.internalWordWidth + size
      = min dstWidth ((k + 1) * config.internalWordWidth) := by omega
  have hoffset : min dstWidth (k * config.internalWordWidth) = k * config.internalWordWidth := by
    omega
  let position : WordPosition := ⟨k * config.internalWordWidth, size, decide (k = 0),
    decide (k = (dstWidth + config.internalWordWidth - 1) / config.internalWordWidth - 1)⟩
  obtain ⟨output, regs', c, hrun, hext, hc, hcarry, hword⟩ :=
    @chosenWord_extends _ _ _ _ _ _ _ _ _ _ _ _ rfl _ _ _ _ position h rfl hk
  let word := truncate (combine (!isAdd) (a.denote s0) (b.denote s1)
    / 2 ^ (k * config.internalWordWidth)) size
  refine ⟨⟨output.2, output.1.2, state.words ++ [.register output.1.1],
    state.entries ++ [⟨0, k * config.internalWordWidth, size⟩]⟩, regs', values ++ [⟨word, size⟩],
    ?_, ?_⟩
  · have hpos : 0 < size := by omega
    have hlast : (!position.isLastWord || decide (min dstWidth (k * config.internalWordWidth
        + config.internalWordWidth) = dstWidth)) = true := by
      rw [Bool.or_eq_true, Bool.not_eq_true', decide_eq_false_iff_not, decide_eq_true_eq, hlastIff]
      omega
    rw [addSubStep, assert_of_true (decide_eq_true hpos), ok_bind, assert_of_true hlast, ok_bind]
    exact bind_eq_ok_iff.mpr ⟨output, hrun, rfl⟩
  · have hreads := hword.reads
    have hbits : truncate (wordResult (!isAdd) (a.denote s0) (b.denote s1)
        (k * config.internalWordWidth) size c) size = word :=
      truncate_eq_truncate_iff.mpr (wordResult_modEq hcarry)
    have hreads : Reads output.2 regs' (.register output.1.1) ⟨word, size⟩ := by
      rw [← hbits]
      exact hword.reads
    have hgathered := h.gathered
    rw [hoffset] at hgathered
    refine ⟨h.extend.trans hext, hext.keeps h.src0_reads, hext.keeps h.src1_reads, ?_, ?_, ?_, ?_⟩
    · exact List.rel_append (h.words.imp fun _ _ hs => hext.keeps hs) (.cons hreads .nil)
    · simp [h.entries]
    · rw [← hsize]
      exact gatherBits_append h.entries hgathered
    · intro _ hk'
      obtain ⟨r, hr, hcarryReads⟩ := hword.carry (decide_eq_false (by rw [hlastIff]; omega))
      have hrange := @carryOut_range (!isAdd) (a.denote s0) (b.denote s1) _
        (k * config.internalWordWidth) size
        ⟨Int.natCast_nonneg c, by exact_mod_cast hc⟩
      refine ⟨r, _, hr, hcarryReads, by dsimp only [position]; omega, ?_⟩
      have hnext := carryAt_next (w := size) hcarry
      rw [hsize, Nat.min_eq_right hk'.le] at hnext
      rw [Int.toNat_of_nonneg hrange.1]
      exact hnext

theorem wordsInvariant_zero (ha : Reads ⟨table, []⟩ regs0 src0 a)
    (hb : Reads ⟨table, []⟩ regs0 src1 b) {sub : Bool} {x y : Int} {wordWidth : Nat} :
    WordsInvariant table regs0 src0 src1 a b sub x y dstWidth wordWidth 0
      ⟨⟨table, []⟩, none, [], []⟩ regs0 [] where
  extend := Extends.refl fun _ _ => rfl
  src0_reads := ha
  src1_reads := hb
  words := .nil
  entries := rfl
  gathered := by simp [gatherBits, truncate_eq]
  carry h := absurd h (Nat.lt_irrefl 0)

/-- The whole loop. -/
theorem addSubLoop (hw : 0 < config.internalWordWidth) (ha : Reads ⟨table, []⟩ regs0 src0 a)
    (hb : Reads ⟨table, []⟩ regs0 src1 b) {k : Nat}
    (hk : k ≤ (dstWidth + config.internalWordWidth - 1) / config.internalWordWidth) :
    ∃ state regs values,
      (List.range k).foldlM (addSubStep config isAdd src0 s0 src1 s1 dstWidth
        ((dstWidth + config.internalWordWidth - 1) / config.internalWordWidth))
        ⟨⟨table, []⟩, none, [], []⟩ = .ok state ∧
      WordsInvariant table regs0 src0 src1 a b (!isAdd) (a.denote s0) (b.denote s1) dstWidth
        config.internalWordWidth k state regs values := by
  induction k with
  | zero => exact ⟨_, regs0, [], rfl, wordsInvariant_zero ha hb⟩
  | succ k ih =>
      obtain ⟨state, regs, values, hrun, h⟩ := ih (Nat.le_of_succ_le hk)
      obtain ⟨state', regs', values', hstep, h'⟩ :=
        addSubStep_preserves hw ((lt_numWords_iff hw).mp hk) h
      refine ⟨state', regs', values', ?_, h'⟩
      rw [List.range_succ, List.foldlM_append, hrun, ok_bind, List.foldlM_cons, hstep]
      rfl

end Loop

/-! ## The pass as a whole -/

/-- An addition or subtraction of literals and of registers that exist. -/
structure AddSubShape (table : RegisterTable) (op : Operation) (isAdd : Bool)
    (src0 src1 : SourceOperand) (dst : Nat) : Prop where
  opcode_eq : op.opcode = .binaryOp (if isAdd then .add else .sub)
  src_eq : op.src = [src0, src1]
  dst_eq : op.dst = [.register dst]
  src_allocated : ∀ s ∈ [src0, src1], (∃ l, s = .literal l) ∨
    ∃ r, s = .register r ∧ r < table.length
  dst_allocated : dst < table.length

open Emission in
theorem AddSubShape.reads {table : RegisterTable} {op : Operation} {isAdd : Bool}
    {src0 src1 s : SourceOperand} {dst : Nat} (h : AddSubShape table op isAdd src0 src1 dst)
    (hs : s ∈ [src0, src1]) {regs : Nat → Nat} {l : Literal}
    (hl : s.literalIn table regs = some l) : Reads ⟨table, []⟩ regs s l := by
  refine ⟨fun r hr => ?_, hl⟩
  subst hr
  rcases h.src_allocated _ hs with ⟨l', hl'⟩ | ⟨r', hr', hlt⟩
  · exact nomatch hl'
  · cases hr'
    exact hlt

section Decompose

open Emission

variable {table : RegisterTable} {op : Operation} {isAdd : Bool} {src0 src1 : SourceOperand}
  {dst : Nat} {config : DecomposeAddSubConfig}

/-- What the emitted operations do when the registers are `regs`. -/
theorem decomposeAddSub_runs (hshape : AddSubShape table op isAdd src0 src1 dst)
    (hwidth : 0 < config.internalWordWidth)
    (hwords : config.internalWordWidth < (table.desc dst).width) {regs : Nat → Nat}
    {a b : Literal} (ha : src0.literalIn table regs = some a)
    (hb : src1.literalIn table regs = some b) :
    ∃ e regs', decomposeAddSub (some config) table op = .ok (some e) ∧
      runCombinational e.table regs e.ops = some regs' ∧
      regs' dst = truncate (exactBinaryOp (if isAdd then .add else .sub)
        (a.denote (op.shouldSignExtend 0)) (b.denote (op.shouldSignExtend 1)))
        (table.desc dst).width ∧
      ∀ r, r < table.length → r ≠ dst → regs' r = regs r := by
  obtain ⟨state, regs1, values, hrun, h⟩ := @addSubLoop _ _ _ _ _ _
    (op.shouldSignExtend 0) (op.shouldSignExtend 1) isAdd _ (table.desc dst).width
    hwidth (hshape.reads (by simp) ha) (hshape.reads (by simp) hb) _ (Nat.le_refl _)
  have hdesc := desc_of_grow h.extend.grows hshape.dst_allocated
  have hend := mt (@lt_numWords_iff (table.desc dst).width _ _ hwidth).mpr
    (Nat.lt_irrefl _)
  have hgathered := h.gathered
  rw [Nat.min_eq_left (Nat.not_lt.mp hend)] at hgathered
  have hresult : combinationalResult (.gather state.entries) 0
      (state.emission.table.desc dst).width values = some (truncate (exactBinaryOp
        (if isAdd then .add else .sub) (a.denote (op.shouldSignExtend 0))
        (b.denote (op.shouldSignExtend 1))) (table.desc dst).width) := by
    rw [combinationalResult, hgathered, hdesc, truncate_natCast_of_lt (truncate_lt _ _),
      exactBinaryOp_eq_combine]
  let final : Operation :=
    { opcode := .gather state.entries, src := state.words, dst := [.register dst] }
  have hfinal := @push_runs _ _ _ h.extend.runs final _ _ _ rfl h.words hresult
  refine ⟨state.emission.push final, _, ?_, hfinal, Function.update_self .., ?_⟩
  · have hmany : 1 < ((table.desc dst).width + config.internalWordWidth - 1)
        / config.internalWordWidth := (lt_numWords_iff hwidth).mpr (by omega)
    have htype : (decide ((if isAdd then BinaryOpType.add else .sub) = .add)
        || decide ((if isAdd then BinaryOpType.add else .sub) = .sub)) = true := by
      cases isAdd <;> rfl
    have hisAdd : decide ((if isAdd then BinaryOpType.add else .sub) = .add) = isAdd := by
      cases isAdd <;> rfl
    rw [decomposeAddSub, hshape.opcode_eq, hshape.src_eq, hshape.dst_eq]
    dsimp only [DestinationOperand.width]
    rw [assert_of_true htype, ok_bind, assert_of_true (decide_eq_true hmany), ok_bind, hisAdd, hrun,
      ok_bind]
    rfl
  · intro r hr hne
    rw [Function.update_of_ne hne]
    exact h.extend.frame r hr

/-- For every width of a word that gives at least two of them, and with carry-select or without,
    the operations that replace an addition or a subtraction leave in its destination the sum or
    difference of the two extended sources modulo two to its width, and every other register as
    it was. -/
theorem decomposeAddSub_preserves (hshape : AddSubShape table op isAdd src0 src1 dst)
    (hwidth : 0 < config.internalWordWidth)
    (hwords : config.internalWordWidth < (table.desc dst).width) :
    ∃ e, decomposeAddSub (some config) table op = .ok (some e) ∧
      ∀ regs a b, src0.literalIn table regs = some a → src1.literalIn table regs = some b →
        ∃ regs', runCombinational e.table regs e.ops = some regs' ∧
          regs' dst = truncate (exactBinaryOp (if isAdd then .add else .sub)
            (a.denote (op.shouldSignExtend 0)) (b.denote (op.shouldSignExtend 1)))
            (table.desc dst).width ∧
          ∀ r, r < table.length → r ≠ dst → regs' r = regs r := by
  have hliteral : ∀ s ∈ [src0, src1], ∀ regs, ∃ l, s.literalIn table regs = some l := by
    intro s hs regs
    rcases hshape.src_allocated s hs with ⟨l, rfl⟩ | ⟨r, rfl, -⟩
    · exact ⟨l, rfl⟩
    · exact ⟨_, rfl⟩
  obtain ⟨a0, ha0⟩ := hliteral src0 (by simp) fun _ => 0
  obtain ⟨b0, hb0⟩ := hliteral src1 (by simp) fun _ => 0
  obtain ⟨e, -, he, -⟩ := decomposeAddSub_runs hshape hwidth hwords ha0 hb0
  refine ⟨e, he, fun regs a b ha hb => ?_⟩
  obtain ⟨e', regs', he', h⟩ := decomposeAddSub_runs hshape hwidth hwords ha hb
  rw [he, Except.ok.injEq, Option.some.injEq] at he'
  subst he'
  exact ⟨regs', h⟩

end Decompose

/-- `d = a - b` on eight bits of `a`, four signed bits of `b` and eleven of `d`, in words of
    four bits with carry-select. -/
def subtraction : Operation :=
  { opcode := .binaryOp .sub, signExtendSourceMask := 2
    src := [.register 0, .register 1], dst := [.register 2] }

theorem decomposeAddSub_preserves_subtraction :
    ∃ e, decomposeAddSub (some ⟨true, 4⟩) [localRegister 8, localRegister 4, localRegister 11]
        subtraction = .ok (some e) ∧
      ∀ regs a b,
        (SourceOperand.register 0).literalIn
          [localRegister 8, localRegister 4, localRegister 11] regs = some a →
        (SourceOperand.register 1).literalIn
          [localRegister 8, localRegister 4, localRegister 11] regs = some b →
        ∃ regs', runCombinational e.table regs e.ops = some regs' ∧
          regs' 2 = truncate (exactBinaryOp .sub (a.denote false) (b.denote true)) 11 ∧
          ∀ r, r < 3 → r ≠ 2 → regs' r = regs r :=
  @decomposeAddSub_preserves _ _ false _ _ 2 ⟨true, 4⟩
    ⟨rfl, rfl, rfl, by simp, by decide⟩ (by decide) (by decide)

end Kanagawa.Optimize
