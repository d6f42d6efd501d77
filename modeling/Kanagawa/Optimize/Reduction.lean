/-
  Kanagawa.Optimize.Reduction

  Reduction trees (`optimize_lut.cpp`, `ReduceBinaryOp`).

  The bits of a register are combined into one by AND or OR, either by levels of
  lookup tables that take a few bits each or by a tree of two-input operators on
  single bits.  Both operators have an absorbing bit (zero for AND, one for OR);
  each level keeps whether that bit occurs, and the last level is that answer.
-/
import Kanagawa.IR.Combinational
import Kanagawa.Optimize.LutFixup

namespace Kanagawa.Optimize

open IR Lib.Bits Lib.Except

/-! ## Tables -/

/-- A lookup table filled one row after the other. -/
def buildTable (tableSize : Nat) (row : Nat → Bool) : Nat :=
  (List.range tableSize).foldl
    (fun table tableIndex => table ||| (row tableIndex).toNat <<< tableIndex) 0

theorem testBit_buildTable (tableSize : Nat) (row : Nat → Bool) (c : Nat) :
    (buildTable tableSize row).testBit c = (decide (c < tableSize) && row c) := by
  have hstep : (fun (table tableIndex : Nat) => table ||| (row tableIndex).toNat <<< tableIndex)
      = fun table tableIndex => if row tableIndex then table ||| 2 ^ tableIndex else table := by
    funext table tableIndex
    cases row tableIndex with
    | false => simp
    | true => simp [Nat.shiftLeft_eq]
  rw [buildTable, hstep, testBit_foldl_lor (List.range tableSize) row (fun i => i), Nat.zero_testBit,
    Bool.false_or, Bool.eq_iff_iff, List.any_eq_true, Bool.and_eq_true, decide_eq_true_eq]
  constructor
  · rintro ⟨i, hi, hrow⟩
    rw [Bool.and_eq_true, beq_iff_eq] at hrow
    obtain ⟨hrow, rfl⟩ := hrow
    exact ⟨List.mem_range.mp hi, hrow⟩
  · rintro ⟨hc, hrow⟩
    exact ⟨c, List.mem_range.mpr hc, by simp [hrow]⟩

theorem testBit_lutBits (entries : List LutEntry) (values : List Literal) (c : Nat) :
    (lutBits entries values).testBit c = entries[c]?.any fun entry => entry.evaluate values :=
  testBit_foldl_zipIdx entries (fun entry => entry.evaluate values) c

/-! ## Lookup tables -/

/-- The number of sources of the lookup tables a device has many of (`_smallLutSize`).  The
    tables of the program hold six sources at most, and one source reduces nothing. -/
structure LutSize where
  size : Nat
  two_le : 2 ≤ size
  le_max : size ≤ maxLutSources

/-- The loop that replaces the two low bits of a row by their entry in a two-input table. -/
def reduceRow (twoInputLut : Nat) : Nat → Nat → Nat
  | 0, reducedBits => reducedBits
  | n + 1, reducedBits =>
      let indexIntoLut := reducedBits &&& 3
      let output := (twoInputLut >>> indexIntoLut) &&& 1
      -- `(reducedBits >> 1) & ~1` clears the bit that the output replaces
      reduceRow twoInputLut n (((reducedBits >>> 1) / 2 * 2) ||| output)

/-- The entry that reduces one group of source bits. -/
def reduceLutEntry (twoInputLut maxLutSources srcWidth dstBit : Nat) : LutEntry :=
  let startSrcBit := dstBit * maxLutSources
  let endSrcBit := min (startSrcBit + maxLutSources) srcWidth
  let numSrcBits := endSrcBit - startSrcBit
  { sources := (List.range numSrcBits).map fun i => (0, startSrcBit + i)
    table := buildTable (2 ^ numSrcBits) fun tableIndex =>
      (reduceRow twoInputLut (numSrcBits - 1) tableIndex).testBit 0 }

/-- One level: an operation that reduces each group of bits to one. -/
def reduceLutOperation (twoInputLut maxLutSources srcWidth currSrcReg : Nat) : Operation :=
  let dstWidth := (srcWidth + maxLutSources - 1) / maxLutSources
  { opcode := .lut ((List.range dstWidth).map (reduceLutEntry twoInputLut maxLutSources srcWidth))
    src := [.register currSrcReg] }

/-- The loop of `ReduceBinaryOpLut`, with a bound on its iterations. -/
def reduceLutLoop (lutSize : LutSize) (twoInputLut dst : Nat) :
    Nat → Emission → Nat → Except Failure Emission
  | 0, _, _ => .error .assertion
  | fuel + 1, e, currSrcReg => do
      let srcWidth := (e.table.desc currSrcReg).width
      let dstWidth := (srcWidth + lutSize.size - 1) / lutSize.size
      assert (0 < dstWidth)
      let reduceOp := reduceLutOperation twoInputLut lutSize.size srcWidth currSrcReg
      if dstWidth > 1 then
        let level := e.emit reduceOp dstWidth
        reduceLutLoop lutSize twoInputLut dst fuel level.2 level.1
      else
        -- This is the final pass, write results to the output register
        return e.push { reduceOp with dst := [.register dst] }

/-- `ReduceBinaryOpLut`.  Every level is narrower than the one before. -/
def reduceBinaryOpLut (lutSize : LutSize) (e : Emission) (srcReg twoInputLut dst : Nat) :
    Except Failure Emission :=
  reduceLutLoop lutSize twoInputLut dst (e.table.desc srcReg).width e srcReg

/-! ## Two-input operators -/

/-- The one-bit registers of a register's bits, from bit `i` on. -/
def extractBits (srcReg : Nat) : Nat → Nat → Emission → List Nat × Emission
  | 0, _, e => ([], e)
  | n + 1, i, e =>
      let bit := e.binaryOp .shr 1 (.register srcReg) false (sizeLiteral i) false
      let rest := extractBits srcReg n (i + 1) bit.2
      (bit.1 :: rest.1, rest.2)

/-- One round: pairs are combined, and one left over is carried to the next round. -/
def combinePairs (reduceOp : BinaryOpType) : List Nat → Emission → List Nat × Emission
  | r0 :: r1 :: rest, e =>
      let pair := e.binaryOp reduceOp 1 (.register r0) false (.register r1) false
      let others := combinePairs reduceOp rest pair.2
      (pair.1 :: others.1, others.2)
  | srcRegs, e => (srcRegs, e)

/-- The loop that combines until one register is left, with a bound on its iterations. -/
def combineLoop (reduceOp : BinaryOpType) : Nat → List Nat → Emission → List Nat × Emission
  | fuel + 1, srcRegs, e =>
      if srcRegs.length > 1 then
        let round := combinePairs reduceOp srcRegs e
        combineLoop reduceOp fuel round.1 round.2
      else (srcRegs, e)
  | 0, srcRegs, e => (srcRegs, e)

/-- `ReduceBinaryOpNoLut`. -/
def reduceBinaryOpNoLut (e : Emission) (srcReg : Nat) (reduceOp : BinaryOpType) (dst : Nat) :
    Except Failure Emission :=
  let srcWidth := (e.table.desc srcReg).width
  let bits := extractBits srcReg srcWidth 0 e
  let result := combineLoop reduceOp srcWidth bits.1 bits.2
  match result.1 with
  | srcReg :: _ => .ok (result.2.push
      (Operation.pushOperand { opcode := .mov, dst := [.register dst] } (.register srcReg) false))
  | [] => .error .assertion

/-- `ReduceBinaryOp`: `luts` is the size of lookup tables on a device that supports them. -/
def reduceBinaryOp (luts : Option LutSize) (e : Emission) (srcReg : Nat) (reduceOp : BinaryOpType)
    (dst : Nat) : Except Failure Emission :=
  match luts with
  | some lutSize =>
      if reduceOp = .and then reduceBinaryOpLut lutSize e srcReg 8 dst
      else do
        assert (reduceOp = .or)
        reduceBinaryOpLut lutSize e srcReg 14 dst
  | none => reduceBinaryOpNoLut e srcReg reduceOp dst

/-! ## Reduction of bits -/

/-- Some of the first `w` bits is `z`. -/
def Occurs (z : Bool) (w x : Nat) : Prop := ∃ i, i < w ∧ x.testBit i = z

/-- A two-input table whose output is `z` when some input is. -/
def Absorbs (twoInputLut : Nat) (z : Bool) : Prop :=
  ∀ b t : Bool, twoInputLut.testBit (b.toNat + 2 * t.toNat) = z ↔ b = z ∨ t = z

theorem absorbs_and : Absorbs 8 false := by
  rintro (_ | _) (_ | _) <;> decide

theorem absorbs_or : Absorbs 14 true := by
  rintro (_ | _) (_ | _) <;> decide

theorem occurs_succ {z : Bool} {w x : Nat} :
    Occurs z (w + 1) x ↔ x.testBit 0 = z ∨ Occurs z w (x / 2) := by
  constructor
  · rintro ⟨i, hi, hbit⟩
    cases i with
    | zero => exact .inl hbit
    | succ i => exact .inr ⟨i, by omega, by rw [Nat.testBit_div_two]; exact hbit⟩
  · rintro (hbit | ⟨i, hi, hbit⟩)
    · exact ⟨0, Nat.succ_pos w, hbit⟩
    · exact ⟨i + 1, by omega, by rw [Nat.testBit_div_two] at hbit; exact hbit⟩

/-- One step of the loop on a row: the output takes the place of the two low bits. -/
theorem reduceRow_step (twoInputLut reducedBits : Nat) :
    let next := ((reducedBits >>> 1) / 2 * 2) |||
      ((twoInputLut >>> (reducedBits &&& 3)) &&& 1)
    next / 2 = reducedBits / 2 / 2 ∧
      next.testBit 0 = twoInputLut.testBit
        ((reducedBits.testBit 0).toNat + 2 * ((reducedBits / 2).testBit 0).toNat) := by
  intro next
  have hindex : reducedBits &&& 3
      = (reducedBits.testBit 0).toNat + 2 * ((reducedBits / 2).testBit 0).toNat := by
    rw [show 3 = 2 ^ 2 - 1 by rfl, Nat.and_two_pow_sub_one_eq_mod, Nat.toNat_testBit,
      Nat.toNat_testBit]
    omega
  have hbit : (twoInputLut >>> (reducedBits &&& 3)) &&& 1
      = (twoInputLut.testBit (reducedBits &&& 3)).toNat := by
    rw [Nat.and_one_is_mod, Nat.toNat_testBit, Nat.shiftRight_eq_div_pow]
  have hnext : next = 2 * (reducedBits / 2 / 2)
      + (twoInputLut.testBit (reducedBits &&& 3)).toNat := by
    show ((reducedBits >>> 1) / 2 * 2) ||| _ = _
    have hlt : (twoInputLut.testBit (reducedBits &&& 3)).toNat < 2 ^ 1 := Bool.toNat_lt _
    have hor := Nat.shiftLeft_add_eq_or_of_lt hlt (reducedBits / 2 / 2)
    rw [Nat.shiftLeft_eq, Nat.pow_one] at hor
    rw [hbit, Nat.shiftRight_one, ← hor, Nat.mul_comm]
  have hle := Bool.toNat_lt (twoInputLut.testBit (reducedBits &&& 3))
  refine ⟨by omega, ?_⟩
  rw [← hindex, hnext]
  cases twoInputLut.testBit (reducedBits &&& 3) <;> simp

/-- The row of a larger table is reduced to whether `z` occurs among its bits. -/
theorem reduceRow_eq_iff {twoInputLut : Nat} {z : Bool} (h : Absorbs twoInputLut z) (n : Nat) :
    ∀ reducedBits, (reduceRow twoInputLut n reducedBits).testBit 0 = z ↔
      Occurs z (n + 1) reducedBits := by
  induction n with
  | zero =>
      intro reducedBits
      rw [occurs_succ]
      have hnone : ¬ Occurs z 0 (reducedBits / 2) := fun ⟨_, hi, _⟩ => Nat.not_lt_zero _ hi
      simp only [hnone, or_false]
      rfl
  | succ n ih =>
      intro reducedBits
      obtain ⟨hrest, hbit⟩ := reduceRow_step twoInputLut reducedBits
      rw [reduceRow, ih, occurs_succ, hrest, hbit, h, occurs_succ (w := n + 1), occurs_succ, or_assoc]

/-! ### One level of lookup tables -/

section Level

variable {twoInputLut : Nat} {z : Bool} {m w x : Nat}

/-- The row that the group's bits select. -/
theorem testBit_selectedRow_group (start n c : Nat) :
    (selectedRow [⟨x, w⟩] ((List.range n).map fun i => (0, start + i))).testBit c
      = (decide (c < n) && x.testBit (start + c)) := by
  rw [testBit_selectedRow]
  by_cases hc : c < n
  · simp [hc, selectedBit]
  · simp [hc]

/-- An entry finds whether `z` occurs in its group. -/
theorem reduceLutEntry_evaluate (h : Absorbs twoInputLut z) (hm : 0 < m) {dstBit : Nat}
    (hbit : dstBit * m < w) :
    (reduceLutEntry twoInputLut m w dstBit).evaluate [⟨x, w⟩] = z ↔
      ∃ i, i < m ∧ dstBit * m + i < w ∧ x.testBit (dstBit * m + i) = z := by
  rw [evaluate_eq]
  let n := min (dstBit * m + m) w - dstBit * m
  let row := selectedRow [⟨x, w⟩] ((List.range n).map fun i => (0, dstBit * m + i))
  have hn : n - 1 + 1 = n := by omega
  have hrow : row < 2 ^ n := by
    have hlt := selectedRow_lt [⟨x, w⟩] ((List.range n).map fun i => (0, dstBit * m + i))
    rwa [List.length_map, List.length_range] at hlt
  have htable : (reduceLutEntry twoInputLut m w dstBit).table.testBit row
      = (reduceRow twoInputLut (n - 1) row).testBit 0 := by
    show (buildTable (2 ^ n) _).testBit row = _
    rw [testBit_buildTable, decide_eq_true hrow, Bool.true_and]
  show (reduceLutEntry twoInputLut m w dstBit).table.testBit row = z ↔ _
  rw [htable, reduceRow_eq_iff h, hn]
  constructor
  · rintro ⟨i, hi, hz⟩
    rw [testBit_selectedRow_group, decide_eq_true hi, Bool.true_and] at hz
    exact ⟨i, by omega, by omega, hz⟩
  · rintro ⟨i, hi, hiw, hz⟩
    refine ⟨i, by omega, ?_⟩
    rw [testBit_selectedRow_group, decide_eq_true (by omega), Bool.true_and, hz]

/-- A level keeps whether `z` occurs. -/
theorem occurs_level (h : Absorbs twoInputLut z) (hm : 0 < m) :
    Occurs z ((w + m - 1) / m)
      (truncate (lutBits ((List.range ((w + m - 1) / m)).map (reduceLutEntry twoInputLut m w))
        [⟨x, w⟩] : Nat) ((w + m - 1) / m)) ↔ Occurs z w x := by
  have hgroup : ∀ j, j < (w + m - 1) / m ↔ j * m < w := by
    intro j
    rw [← Nat.succ_le_iff, Nat.le_div_iff_mul_le hm, Nat.succ_mul]
    omega
  have hbit : ∀ j, j < (w + m - 1) / m →
      (truncate (lutBits ((List.range ((w + m - 1) / m)).map (reduceLutEntry twoInputLut m w))
        [⟨x, w⟩] : Nat) ((w + m - 1) / m)).testBit j
      = (reduceLutEntry twoInputLut m w j).evaluate [⟨x, w⟩] := by
    intro j hj
    rw [truncate_natCast, Nat.testBit_mod_two_pow, testBit_lutBits, decide_eq_true hj,
      Bool.true_and, List.getElem?_map, List.getElem?_range hj]
    rfl
  constructor
  · rintro ⟨j, hj, hz⟩
    rw [hbit j hj, reduceLutEntry_evaluate h hm ((hgroup j).mp hj)] at hz
    obtain ⟨i, -, hi, hz⟩ := hz
    exact ⟨_, hi, hz⟩
  · rintro ⟨i, hi, hz⟩
    have hsplit : i / m * m + i % m = i := by rw [Nat.mul_comm]; exact Nat.div_add_mod i m
    have hj : i / m * m < w := by omega
    refine ⟨i / m, (hgroup _).mpr hj, ?_⟩
    rw [hbit _ ((hgroup _).mpr hj), reduceLutEntry_evaluate h hm hj]
    exact ⟨i % m, Nat.mod_lt _ hm, by rw [hsplit]; exact hi, by rw [hsplit]; exact hz⟩

end Level

/-! ## The operations -/

/-- The bit that an operator of a reduction absorbs. -/
def IsReduction (reduceOp : BinaryOpType) (z : Bool) : Prop :=
  (reduceOp = .and ∧ z = false) ∨ (reduceOp = .or ∧ z = true)

/-- The operations have been emitted, and after them the destination holds a bit. -/
structure ReducedTo (e e' : Emission) (start regs regs' : Nat → Nat) (dst : Nat)
    (result : Bool) : Prop where
  runs : runCombinational e'.table start e'.ops = some regs'
  value : regs' dst = result.toNat
  frame : ∀ r, r < e.table.length → r ≠ dst → regs' r = regs r

section Operations

open Emission

variable {e : Emission} {start regs : Nat → Nat} {z : Bool} {dst : Nat}

theorem ReducedTo.of_extends {e1 e2 : Emission} {regs1 regs2 : Nat → Nat} {result : Bool}
    (hext : Extends e e1 start regs regs1) (h : ReducedTo e1 e2 start regs1 regs2 dst result) :
    ReducedTo e e2 start regs regs2 dst result :=
  ⟨h.runs, h.value, fun r hr hne =>
    (h.frame r (Nat.lt_of_lt_of_le hr hext.grows.length_le) hne).trans (hext.frame r hr)⟩

theorem toNat_testBit_zero {x : Nat} (h : x < 2 ^ 1) : x = (x.testBit 0).toNat := by
  rw [Nat.toNat_testBit]
  omega

theorem reduceLutLoop_runs {lutSize : LutSize} {twoInputLut : Nat} (h : Absorbs twoInputLut z)
    (fuel : Nat) : ∀ (e : Emission) (regs : Nat → Nat) (cur x w : Nat), w ≤ fuel → 0 < w →
      Runs e start regs → Reads e regs (.register cur) ⟨x, w⟩ → dst < e.table.length →
      (e.table.desc dst).width = 1 →
      ∃ e' regs' result, reduceLutLoop lutSize twoInputLut dst fuel e cur = .ok e' ∧
        ReducedTo e e' start regs regs' dst result ∧ (result = z ↔ Occurs z w x) := by
  have hm : 0 < lutSize.size := Nat.lt_of_lt_of_le (by decide) lutSize.two_le
  have hm2 := lutSize.two_le
  induction fuel with
  | zero => intro e regs cur x w hfuel hw; omega
  | succ fuel ih =>
      intro e regs cur x w hfuel hw hruns hreads hdst hdstWidth
      have hwidth : (e.table.desc cur).width = w := (Reads.register_iff.mp hreads).2.1
      have hpos : 0 < (w + lutSize.size - 1) / lutSize.size := Nat.div_pos (by omega) hm
      have hlevel := occurs_level (w := w) (x := x) h hm
      have hresult : combinationalResult (reduceLutOperation twoInputLut lutSize.size w cur).opcode
          (reduceLutOperation twoInputLut lutSize.size w cur).signExtendSourceMask
          ((w + lutSize.size - 1) / lutSize.size) [⟨x, w⟩] = some (truncate
            (lutBits ((List.range ((w + lutSize.size - 1) / lutSize.size)).map
              (reduceLutEntry twoInputLut lutSize.size w)) [⟨x, w⟩] : Nat)
            ((w + lutSize.size - 1) / lutSize.size)) := rfl
      by_cases hmany : (w + lutSize.size - 1) / lutSize.size > 1
      · -- The next level reduces the bits of this one
        obtain ⟨regs1, hext, hreads1⟩ := emit_extends hruns (.cons hreads .nil) hresult
        have hlt : (w + lutSize.size - 1) / lutSize.size < w := by
          rw [Nat.div_lt_iff_lt_mul hm]
          have hw2 : 2 ≤ w := by
            by_contra hsmall
            have hone : w = 1 := by omega
            rw [hone, show 1 + lutSize.size - 1 = lutSize.size by omega, Nat.div_self hm] at hmany
            omega
          obtain ⟨k, hk⟩ := Nat.exists_eq_add_of_le hw2
          obtain ⟨t, ht⟩ := Nat.exists_eq_add_of_le hm2
          have hmul : (2 + k) * (2 + t) = 4 + 2 * k + 2 * t + k * t := by ring
          rw [hk, ht, hmul]
          omega
        have hdesc := desc_of_grow hext.grows hdst
        obtain ⟨e', regs', result, hrun, hreduced, hiff⟩ := ih _ regs1 _ _ _ (by omega) hpos
          hext.runs hreads1 (Nat.lt_of_lt_of_le hdst hext.grows.length_le) (by rw [hdesc, hdstWidth])
        refine ⟨e', regs', result, ?_, hreduced.of_extends hext, hiff.trans hlevel⟩
        rw [reduceLutLoop]
        dsimp only
        rw [hwidth, assert_of_true (decide_eq_true hpos), ok_bind, if_pos hmany]
        exact hrun
      · have hone : (w + lutSize.size - 1) / lutSize.size = 1 := by omega
        rw [hone] at hlevel hresult
        have hfinal := @push_runs _ _ _ hruns
          { reduceLutOperation twoInputLut lutSize.size w cur with dst := [.register dst] }
          _ _ _ rfl (.cons hreads .nil) (by rw [hdstWidth]; exact hresult)
        let y := truncate (lutBits ((List.range 1).map
          (reduceLutEntry twoInputLut lutSize.size w)) [⟨x, w⟩] : Nat) 1
        refine ⟨e.push _, _, y.testBit 0, ?_, ⟨hfinal, ?_, ?_⟩, ?_⟩
        · rw [reduceLutLoop]
          dsimp only
          rw [hwidth, assert_of_true (decide_eq_true hpos), ok_bind, if_neg hmany]
          rfl
        · rw [Function.update_self]
          exact toNat_testBit_zero (truncate_lt _ 1)
        · intro r _ hne
          exact Function.update_of_ne hne _ _
        · rw [← hlevel, occurs_succ]
          have hnone : ∀ x, ¬ Occurs z 0 x := fun x ⟨_, hi, _⟩ => Nat.not_lt_zero _ hi
          simp only [hnone, or_false]
          rfl

/-! ### Single bits -/

/-- Registers of one bit each that hold the given bits. -/
def ReadsBits (e : Emission) (regs : Nat → Nat) : List Nat → List Bool → Prop :=
  List.Forall₂ fun r b => Reads e regs (.register r) ⟨Bool.toNat b, 1⟩

theorem ReadsBits.keeps {e' : Emission} {regs' : Nat → Nat} (hext : Extends e e' start regs regs')
    {rs : List Nat} {bits : List Bool} (h : ReadsBits e regs rs bits) :
    ReadsBits e' regs' rs bits :=
  List.Forall₂.imp (fun _ _ hr => hext.keeps hr) h

theorem extractBits_extends {src x w : Nat} (n : Nat) : ∀ (i : Nat) (e : Emission)
    (regs : Nat → Nat), Runs e start regs → Reads e regs (.register src) ⟨x, w⟩ →
      ∃ regs', Extends e (extractBits src n i e).2 start regs regs' ∧
        ReadsBits (extractBits src n i e).2 regs' (extractBits src n i e).1
          ((List.range' i n).map x.testBit) := by
  induction n with
  | zero => exact fun i e regs hruns _ => ⟨regs, Extends.refl hruns, .nil⟩
  | succ n ih =>
      intro i e regs hruns hreads
      obtain ⟨regs1, hext1, hbit⟩ := @shr_extends _ _ _ hruns _ _ false hreads i 1
      obtain ⟨regs2, hext2, hbits⟩ := ih (i + 1) _ regs1 hext1.runs (hext1.keeps hreads)
      have hvalue : wordAt (Literal.denote ⟨x, w⟩ false) i 1 = (x.testBit i).toNat := by
        have hcast := natCast_wordAt (Literal.denote ⟨x, w⟩ false) i 1
        rw [denote_false] at hcast ⊢
        rw [Nat.toNat_testBit]
        rw [pow_one] at hcast
        exact_mod_cast hcast
      rw [hvalue] at hbit
      exact ⟨regs2, hext1.trans hext2, .cons (hext2.keeps hbit) hbits⟩

theorem reduceOp_bits {reduceOp : BinaryOpType} (h : IsReduction reduceOp z) (b t : Bool) :
    ∃ r : Bool, truncate (exactBinaryOp reduceOp (b.toNat : Int) (t.toNat : Int)) 1 = r.toNat ∧
      (r = z ↔ b = z ∨ t = z) := by
  rcases h with ⟨rfl, rfl⟩ | ⟨rfl, rfl⟩
  · exact ⟨b && t, by cases b <;> cases t <;> decide, by cases b <;> cases t <;> decide⟩
  · exact ⟨b || t, by cases b <;> cases t <;> decide, by cases b <;> cases t <;> decide⟩

theorem reduction_defined {reduceOp : BinaryOpType} (h : IsReduction reduceOp z) (y : Int) :
    reduceOp.Defined y := by
  rcases h with ⟨rfl, -⟩ | ⟨rfl, -⟩ <;> exact trivial

/-- A round keeps whether `z` occurs, and halves the number of bits. -/
theorem combinePairs_extends {reduceOp : BinaryOpType} (h : IsReduction reduceOp z) (n : Nat) :
    ∀ (rs : List Nat) (bits : List Bool) (e : Emission) (regs : Nat → Nat), rs.length ≤ n →
      Runs e start regs → ReadsBits e regs rs bits →
      ∃ regs' bits', Extends e (combinePairs reduceOp rs e).2 start regs regs' ∧
        ReadsBits (combinePairs reduceOp rs e).2 regs' (combinePairs reduceOp rs e).1 bits' ∧
        (z ∈ bits' ↔ z ∈ bits) ∧
        (combinePairs reduceOp rs e).1.length = (rs.length + 1) / 2 := by
  induction n with
  | zero =>
      intro rs bits e regs hlength hruns hreads
      cases hreads with
      | nil => exact ⟨regs, [], Extends.refl hruns, .nil, Iff.rfl, rfl⟩
      | cons _ _ => exact absurd hlength (by simp)
  | succ n ih =>
      intro rs bits e regs hlength hruns hreads
      cases hreads with
      | nil => exact ⟨regs, [], Extends.refl hruns, .nil, Iff.rfl, rfl⟩
      | @cons r0 b0 rs bits h0 hrest =>
      cases hrest with
      | nil => exact ⟨regs, [b0], Extends.refl hruns, .cons h0 .nil, Iff.rfl, by
          simp [combinePairs]⟩
      | @cons r1 b1 rs bits h1 hrest =>
          obtain ⟨r, hr, hiff⟩ := reduceOp_bits h b0 b1
          obtain ⟨regs1, hext1, hpair⟩ := binaryOp_extends hruns 1 h0 h1 (s := false) (t := false)
            (reduction_defined h _)
          rw [denote_false, denote_false, hr] at hpair
          have hlength' : rs.length ≤ n := by
            rw [List.length_cons, List.length_cons] at hlength
            omega
          obtain ⟨regs2, bits2, hext2, hreads2, hmem, hlen⟩ := ih rs bits _ regs1 hlength'
            hext1.runs (ReadsBits.keeps hext1 hrest)
          refine ⟨regs2, r :: bits2, hext1.trans hext2, .cons (hext2.keeps hpair) hreads2, ?_, ?_⟩
          · rw [List.mem_cons, List.mem_cons, List.mem_cons, hmem, ← or_assoc, eq_comm, hiff,
              eq_comm (a := b0), eq_comm (a := b1)]
          · show (combinePairs reduceOp rs _).1.length + 1 = (rs.length + 1 + 1 + 1) / 2
            rw [hlen]
            omega

/-- The rounds end with one register that says whether `z` occurs. -/
theorem combineLoop_extends {reduceOp : BinaryOpType} (h : IsReduction reduceOp z) (fuel : Nat) :
    ∀ (rs : List Nat) (bits : List Bool) (e : Emission) (regs : Nat → Nat), rs.length ≤ fuel →
      0 < rs.length → Runs e start regs → ReadsBits e regs rs bits →
      ∃ regs' r b, Extends e (combineLoop reduceOp fuel rs e).2 start regs regs' ∧
        (combineLoop reduceOp fuel rs e).1 = [r] ∧
        Reads (combineLoop reduceOp fuel rs e).2 regs' (.register r) ⟨Bool.toNat b, 1⟩ ∧
        (b = z ↔ z ∈ bits) := by
  induction fuel with
  | zero => intro rs bits e regs hfuel hpos; omega
  | succ fuel ih =>
      intro rs bits e regs hfuel hpos hruns hreads
      by_cases hmany : rs.length > 1
      · obtain ⟨regs1, bits1, hext1, hreads1, hmem, hlen⟩ :=
          combinePairs_extends h _ rs bits e regs (Nat.le_refl _) hruns hreads
        obtain ⟨regs2, r, b, hext2, hone, hb, hiff⟩ := ih _ bits1 _ regs1 (by omega) (by omega)
          hext1.runs hreads1
        refine ⟨regs2, r, b, ?_, ?_, ?_, hiff.trans hmem⟩
        · rw [combineLoop, if_pos hmany]
          exact hext1.trans hext2
        · rw [combineLoop, if_pos hmany]
          exact hone
        · rw [combineLoop, if_pos hmany]
          exact hb
      · rw [combineLoop, if_neg hmany]
        cases hreads with
        | nil => exact absurd hpos (Nat.lt_irrefl 0)
        | @cons r b rs bits hr hrest =>
        cases hrest with
        | nil => exact ⟨regs, r, b, Extends.refl hruns, rfl, hr, by simp [eq_comm]⟩
        | cons _ _ => exact absurd (by simp) hmany

theorem reduceBinaryOpNoLut_runs {reduceOp : BinaryOpType} (h : IsReduction reduceOp z)
    {src x w : Nat} (hw : 0 < w) (hruns : Runs e start regs)
    (hreads : Reads e regs (.register src) ⟨x, w⟩) (hdst : dst < e.table.length)
    (hdstWidth : (e.table.desc dst).width = 1) :
    ∃ e' regs' result, reduceBinaryOpNoLut e src reduceOp dst = .ok e' ∧
      ReducedTo e e' start regs regs' dst result ∧ (result = z ↔ Occurs z w x) := by
  have hwidth : (e.table.desc src).width = w := (Reads.register_iff.mp hreads).2.1
  obtain ⟨regs1, hext1, hbits⟩ := extractBits_extends w 0 e regs hruns hreads
  have hlength : (extractBits src w 0 e).1.length = w := by
    rw [List.Forall₂.length_eq hbits, List.length_map, List.length_range']
  obtain ⟨regs2, r, b, hext2, hone, hb, hiff⟩ := combineLoop_extends h w
    (extractBits src w 0 e).1 _ _ regs1 (by omega) (by omega) hext1.runs hbits
  have hext := hext1.trans hext2
  have hdesc := desc_of_grow hext.grows hdst
  have hresult : combinationalResult .mov 0 1 [⟨b.toNat, 1⟩] = some b.toNat := by
    cases b <;> decide
  have hfinal := @push_runs _ _ _ hext2.runs (Operation.pushOperand
    { opcode := .mov, dst := [.register dst] } (.register r) false) _ _ _ rfl (.cons hb .nil) (by rw [hdesc, hdstWidth]; exact hresult)
  refine ⟨Emission.push _ _, _, b, ?_, ⟨hfinal, Function.update_self .., ?_⟩, hiff.trans ?_⟩
  · rw [reduceBinaryOpNoLut, hwidth, hone]
  · intro r' hr' hne
    rw [Function.update_of_ne hne]
    exact hext.frame r' hr'
  · rw [List.mem_map]
    constructor
    · rintro ⟨i, hi, hz⟩
      rw [List.mem_range'_1] at hi
      exact ⟨i, by omega, hz⟩
    · rintro ⟨i, hi, hz⟩
      exact ⟨i, List.mem_range'_1.mpr (by omega), hz⟩

/-- The reduction of a register ends in the destination with whether the operator's absorbing
    bit occurs in it, with lookup tables or without. -/
theorem reduceBinaryOp_runs {reduceOp : BinaryOpType} (h : IsReduction reduceOp z)
    (luts : Option LutSize) {src x w : Nat} (hw : 0 < w) (hruns : Runs e start regs)
    (hreads : Reads e regs (.register src) ⟨x, w⟩) (hdst : dst < e.table.length)
    (hdstWidth : (e.table.desc dst).width = 1) :
    ∃ e' regs' result, reduceBinaryOp luts e src reduceOp dst = .ok e' ∧
      ReducedTo e e' start regs regs' dst result ∧ (result = z ↔ Occurs z w x) := by
  have hwidth : (e.table.desc src).width = w := (Reads.register_iff.mp hreads).2.1
  cases luts with
  | none => exact reduceBinaryOpNoLut_runs h hw hruns hreads hdst hdstWidth
  | some lutSize =>
      rcases h with ⟨rfl, rfl⟩ | ⟨rfl, rfl⟩
      · show ∃ e' regs' result, reduceBinaryOpLut lutSize e src 8 dst = .ok e' ∧ _
        rw [reduceBinaryOpLut, hwidth]
        exact reduceLutLoop_runs absorbs_and w e regs src x w (Nat.le_refl _) hw hruns hreads hdst
          hdstWidth
      · show ∃ e' regs' result, reduceBinaryOpLut lutSize e src 14 dst = .ok e' ∧ _
        rw [reduceBinaryOpLut, hwidth]
        exact reduceLutLoop_runs absorbs_or w e regs src x w (Nat.le_refl _) hw hruns hreads hdst
          hdstWidth

end Operations

end Kanagawa.Optimize
