/-
  Kanagawa.Optimize.ReductionTrees

  The reduction trees of `optimize_lut.cpp` for the device's own size of lookup tables, and for
  several registers (`ReduceVecBinaryOp`).

  A group of a register's bits is written into the arrays of a table entry, which hold
  `c_maxLutSources` sources.  Registers of one width are combined in pairs, bit by bit: every
  round keeps, for each bit, whether the absorbing bit of the operator occurs.
-/
import Kanagawa.Optimize.Reduction

namespace Kanagawa.Optimize

open IR Lib.Bits Lib.Except

/-! ## The size of the device's tables -/

/-- The loop of `ReduceBinaryOpLut` for any `_smallLutSize`.  A group of more bits than a table
    entry has sources is written behind the arrays of the entry. -/
def reduceSmallLutLoop (smallLutSize twoInputLut dst : Nat) :
    Nat → Emission → Nat → Except Failure Emission
  | 0, _, _ => .error .assertion
  | fuel + 1, e, currSrcReg => do
      let srcWidth := (e.table.desc currSrcReg).width
      let dstWidth := (srcWidth + smallLutSize - 1) / smallLutSize
      assert (0 < dstWidth)
      if maxLutSources < min smallLutSize srcWidth then
        throw (.runtimeError "array index out of bounds")
      let reduceOp := reduceLutOperation twoInputLut smallLutSize srcWidth currSrcReg
      if dstWidth > 1 then
        let level := e.emit reduceOp dstWidth
        reduceSmallLutLoop smallLutSize twoInputLut dst fuel level.2 level.1
      else
        return e.push { reduceOp with dst := [.register dst] }

/-- `ReduceBinaryOp`, by `_supportsLuts` and `_smallLutSize` of the device. -/
def reduceBinaryOpOnDevice (supportsLuts : Bool) (smallLutSize : Nat) (e : Emission) (srcReg : Nat)
    (reduceOp : BinaryOpType) (dst : Nat) : Except Failure Emission :=
  let srcWidth := (e.table.desc srcReg).width
  if supportsLuts then
    if reduceOp = .and then reduceSmallLutLoop smallLutSize 8 dst srcWidth e srcReg
    else do
      assert (reduceOp = .or)
      reduceSmallLutLoop smallLutSize 14 dst srcWidth e srcReg
  else reduceBinaryOpNoLut e srcReg reduceOp dst

/-- Groups that fit into the entries are written as they are. -/
theorem reduceSmallLutLoop_eq (lutSize : LutSize) (twoInputLut dst fuel : Nat) :
    ∀ (e : Emission) (currSrcReg : Nat),
      reduceSmallLutLoop lutSize.size twoInputLut dst fuel e currSrcReg
        = reduceLutLoop lutSize twoInputLut dst fuel e currSrcReg := by
  induction fuel with
  | zero => exact fun e currSrcReg => rfl
  | succ fuel ih =>
      intro e currSrcReg
      have hfits : ¬maxLutSources < min lutSize.size (e.table.desc currSrcReg).width := by
        have := lutSize.le_max
        omega
      simp only [reduceSmallLutLoop, reduceLutLoop, if_neg hfits, ih]

theorem reduceBinaryOpOnDevice_eq (supportsLuts : Bool) (lutSize : LutSize) (e : Emission)
    (srcReg : Nat) (reduceOp : BinaryOpType) (dst : Nat) :
    reduceBinaryOpOnDevice supportsLuts lutSize.size e srcReg reduceOp dst
      = reduceBinaryOp (if supportsLuts then some lutSize else none) e srcReg reduceOp dst := by
  cases supportsLuts with
  | false => rfl
  | true => simp only [reduceBinaryOpOnDevice, reduceSmallLutLoop_eq, if_true]; rfl

/-- The operator applied to all of some bits. -/
def reduceBits (reduceOp : BinaryOpType) (bits : List Bool) : Bool :=
  if reduceOp = .and then bits.all id else bits.any id

theorem reduceBits_eq_iff {reduceOp : BinaryOpType} {z : Bool} (h : IsReduction reduceOp z)
    (bits : List Bool) : reduceBits reduceOp bits = z ↔ z ∈ bits := by
  rcases h with ⟨rfl, rfl⟩ | ⟨rfl, rfl⟩
  · simp [reduceBits]
  · simp [reduceBits]

/-- What is the absorbing bit under the same condition is the operator applied to all bits. -/
theorem eq_reduceBits {reduceOp : BinaryOpType} {z result : Bool} (h : IsReduction reduceOp z)
    {bits : List Bool} (hresult : result = z ↔ z ∈ bits) : result = reduceBits reduceOp bits := by
  have hiff := hresult.trans (reduceBits_eq_iff h bits).symm
  revert hiff
  cases result <;> cases reduceBits reduceOp bits <;> cases z <;> decide

/-! ## Several registers -/

/-- A round of `ReduceVecBinaryOp`: pairs are merged, and one left over is passed through. -/
def reduceVecRound (reduceOp : BinaryOpType) (width : Nat) :
    List Nat → Emission → Except Failure (List Nat × Emission)
  | r0 :: r1 :: rest, e => do
      assert (width = (e.table.desc r0).width)
      assert (width = (e.table.desc r1).width)
      let merged := e.emit { opcode := .binaryOp reduceOp, src := [.register r0, .register r1] } width
      let others ← reduceVecRound reduceOp width rest merged.2
      return (merged.1 :: others.1, others.2)
  | regs, e => .ok (regs, e)

/-- The rounds of `ReduceVecBinaryOp`, with a bound on their number. -/
def reduceVecLoop (reduceOp : BinaryOpType) (width : Nat) :
    Nat → List Nat → Emission → Except Failure (List Nat × Emission)
  | fuel + 1, regs, e =>
      if regs.length > 1 then do
        let round ← reduceVecRound reduceOp width regs e
        reduceVecLoop reduceOp width fuel round.1 round.2
      else .ok (regs, e)
  | 0, regs, e => if regs.length > 1 then .error .assertion else .ok (regs, e)

/-- `ReduceVecBinaryOp`. -/
def reduceVecBinaryOp (e : Emission) (srcRegs : List Nat) (reduceOp : BinaryOpType) (dstReg : Nat)
    (defaultValue : Int) : Except Failure Emission := do
  let width := (e.table.desc dstReg).width
  let result ← reduceVecLoop reduceOp width srcRegs.length srcRegs e
  -- Final move to dstReg
  let src := match result.1 with
    | r :: _ => SourceOperand.register r
    | [] => .literal ⟨truncate defaultValue width, width⟩
  return result.2.push { opcode := .mov, src := [src], dst := [.register dstReg] }

section Vector

open Emission

variable {e : Emission} {start regs : Nat → Nat} {z : Bool} {reduceOp : BinaryOpType} {width : Nat}

/-- Registers of one width that hold the given values. -/
def ReadsValues (e : Emission) (regs : Nat → Nat) (width : Nat) : List Nat → List Nat → Prop :=
  List.Forall₂ fun r v => Reads e regs (.register r) ⟨v, width⟩

theorem ReadsValues.keeps {e' : Emission} {regs' : Nat → Nat} (hext : Extends e e' start regs regs')
    {rs vs : List Nat} (h : ReadsValues e regs width rs vs) : ReadsValues e' regs' width rs vs :=
  List.Forall₂.imp (fun _ _ hr => hext.keeps hr) h

/-- Two values merged. -/
theorem merged_bits (h : IsReduction reduceOp z) (width a b : Nat) :
    ∃ v, truncate (exactBinaryOp reduceOp (a : Int) (b : Int)) width = v ∧
      ∀ j, j < width → (v.testBit j = z ↔ a.testBit j = z ∨ b.testBit j = z) := by
  refine ⟨_, rfl, fun j hj => ?_⟩
  rcases h with ⟨rfl, rfl⟩ | ⟨rfl, rfl⟩
  · have hand : truncate (exactBinaryOp .and (a : Int) (b : Int)) width = (a &&& b) % 2 ^ width := by
      have hnat : exactBinaryOp .and (a : Int) (b : Int) = ((a &&& b : Nat) : Int) := rfl
      rw [hnat, truncate_natCast]
    rw [hand, Nat.testBit_mod_two_pow, Nat.testBit_and]
    simp only [hj, decide_true, Bool.true_and, Bool.and_eq_false_iff]
  · have hor : truncate (exactBinaryOp .or (a : Int) (b : Int)) width = (a ||| b) % 2 ^ width := by
      have hnat : exactBinaryOp .or (a : Int) (b : Int) = ((a ||| b : Nat) : Int) := rfl
      rw [hnat, truncate_natCast]
    rw [hor, Nat.testBit_mod_two_pow, Nat.testBit_or]
    simp only [hj, decide_true, Bool.true_and, Bool.or_eq_true]

/-- A move between registers of one width. -/
theorem mov_result {v : Nat} (hv : v < 2 ^ width) :
    combinationalResult .mov 0 width [⟨v, width⟩] = some v := by
  simp only [combinationalResult, denote_false, Nat.zero_testBit]
  rw [truncate_natCast, Nat.mod_eq_of_lt hv]

/-- The absorbing bit occurs at a place of some value. -/
def OccursAt (z : Bool) (vs : List Nat) (j : Nat) : Prop := ∃ v ∈ vs, v.testBit j = z

/-- A round keeps where the absorbing bit occurs, and halves the number of registers. -/
theorem reduceVecRound_extends (h : IsReduction reduceOp z) (n : Nat) :
    ∀ (rs vs : List Nat) (e : Emission) (regs : Nat → Nat), rs.length ≤ n →
      Runs e start regs → ReadsValues e regs width rs vs →
      ∃ round regs' vs', reduceVecRound reduceOp width rs e = .ok round ∧
        Extends e round.2 start regs regs' ∧ ReadsValues round.2 regs' width round.1 vs' ∧
        (∀ j, j < width → (OccursAt z vs' j ↔ OccursAt z vs j)) ∧
        round.1.length = (rs.length + 1) / 2 := by
  induction n with
  | zero =>
      intro rs vs e regs hlength hruns hreads
      cases hreads with
      | nil => exact ⟨_, regs, [], rfl, Extends.refl hruns, .nil, fun _ _ => Iff.rfl, rfl⟩
      | cons _ _ => exact absurd hlength (by simp)
  | succ n ih =>
      intro rs vs e regs hlength hruns hreads
      cases hreads with
      | nil => exact ⟨_, regs, [], rfl, Extends.refl hruns, .nil, fun _ _ => Iff.rfl, rfl⟩
      | @cons r0 v0 rs vs h0 hrest =>
      cases hrest with
      | nil => exact ⟨_, regs, [v0], rfl, Extends.refl hruns, .cons h0 .nil, fun _ _ => Iff.rfl,
          by simp⟩
      | @cons r1 v1 rs vs h1 hrest =>
          have hwidth0 := (Reads.register_iff.mp h0).2.1
          have hwidth1 := (Reads.register_iff.mp h1).2.1
          obtain ⟨v, hv, hbits⟩ := merged_bits h width v0 v1
          have hresult : combinationalResult (.binaryOp reduceOp) 0 width
              [⟨v0, width⟩, ⟨v1, width⟩] = some v := by
            simp only [combinationalResult, denote_false, Nat.zero_testBit]
            rw [if_pos (reduction_defined h _), hv]
          obtain ⟨regs1, hext1, hmerged⟩ := @emit_extends _ _ _ hruns
            { opcode := .binaryOp reduceOp, src := [.register r0, .register r1] } width v _
            (.cons h0 (.cons h1 .nil)) hresult
          have hlength' : rs.length ≤ n := by
            rw [List.length_cons, List.length_cons] at hlength
            omega
          obtain ⟨round, regs2, vs2, hround, hext2, hreads2, hoccurs, hlen⟩ := ih rs vs _ regs1
            hlength' hext1.runs (ReadsValues.keeps hext1 hrest)
          refine ⟨((e.emit { opcode := .binaryOp reduceOp, src := [.register r0, .register r1] } width).1
              :: round.1, round.2), regs2, v :: vs2, ?_, hext1.trans hext2,
            .cons (hext2.keeps hmerged) hreads2, fun j hj => ?_, ?_⟩
          · rw [reduceVecRound, assert_of_true (by simp [hwidth0]),
              assert_of_true (by simp [hwidth1])]
            simp only [ok_bind, hround]
            rfl
          · have hrest' := hoccurs j hj
            have hhead := hbits j hj
            simp only [OccursAt, List.mem_cons, exists_eq_or_imp] at hrest' ⊢
            rw [hrest', hhead, or_assoc]
          · show round.1.length + 1 = _
            rw [hlen, List.length_cons, List.length_cons]
            omega

/-- The rounds end with one register in which the absorbing bit is where it occurs. -/
theorem reduceVecLoop_extends (h : IsReduction reduceOp z) (fuel : Nat) :
    ∀ (rs vs : List Nat) (e : Emission) (regs : Nat → Nat), rs.length ≤ fuel → 0 < rs.length →
      Runs e start regs → ReadsValues e regs width rs vs →
      ∃ result regs' r v, reduceVecLoop reduceOp width fuel rs e = .ok result ∧
        result.1 = [r] ∧ Extends e result.2 start regs regs' ∧
        Reads result.2 regs' (.register r) ⟨v, width⟩ ∧
        ∀ j, j < width → (v.testBit j = z ↔ OccursAt z vs j) := by
  induction fuel with
  | zero => intro rs vs e regs hfuel hpos; omega
  | succ fuel ih =>
      intro rs vs e regs hfuel hpos hruns hreads
      by_cases hmany : rs.length > 1
      · obtain ⟨round, regs1, vs1, hround, hext1, hreads1, hoccurs, hlen⟩ :=
          reduceVecRound_extends h _ rs vs e regs (Nat.le_refl _) hruns hreads
        obtain ⟨result, regs2, r, v, hloop, hone, hext2, hv, hiff⟩ := ih round.1 vs1 round.2 regs1
          (by omega) (by omega) hext1.runs hreads1
        refine ⟨result, regs2, r, v, ?_, hone, hext1.trans hext2, hv, fun j hj =>
          (hiff j hj).trans (hoccurs j hj)⟩
        rw [reduceVecLoop, if_pos hmany, hround]
        exact hloop
      · rw [reduceVecLoop, if_neg hmany]
        cases hreads with
        | nil => exact absurd hpos (Nat.lt_irrefl 0)
        | @cons r v rs vs hr hrest =>
        cases hrest with
        | nil =>
            refine ⟨_, regs, r, v, rfl, rfl, Extends.refl hruns, hr, fun j _ => ?_⟩
            simp [OccursAt]
        | cons _ _ => exact absurd (by simp) hmany

/-- The reduction of several registers ends in the destination with the operator applied to their
    bits at each place. -/
theorem reduceVecBinaryOp_runs (h : IsReduction reduceOp z) {srcRegs vs : List Nat} {dst : Nat}
    (defaultValue : Int) (hruns : Runs e start regs) (hdst : dst < e.table.length)
    (hreads : ReadsValues e regs (e.table.desc dst).width srcRegs vs) :
    ∃ e' regs', reduceVecBinaryOp e srcRegs reduceOp dst defaultValue = .ok e' ∧
      runCombinational e'.table start e'.ops = some regs' ∧
      (∀ j, j < (e.table.desc dst).width → (regs' dst).testBit j =
        if vs = [] then (truncate defaultValue (e.table.desc dst).width).testBit j
        else reduceBits reduceOp (vs.map fun v => v.testBit j)) ∧
      ∀ r, r < e.table.length → r ≠ dst → regs' r = regs r := by
  generalize hw : (e.table.desc dst).width = width at hreads
  by_cases hempty : srcRegs = []
  · subst hempty
    obtain rfl := List.forall₂_nil_left_iff.mp hreads
    have hliteral := Reads.literal e regs ⟨truncate defaultValue width, width⟩
    have hresult := mov_result (truncate_lt defaultValue width)
    rw [← hw] at hresult hliteral
    have hfinal := @push_runs _ _ _ hruns
      { opcode := .mov, src := [.literal ⟨truncate defaultValue (e.table.desc dst).width, _⟩],
        dst := [.register dst] } _ _ _ rfl (.cons hliteral .nil) hresult
    rw [hw] at hfinal
    refine ⟨Emission.push _ _, Function.update regs dst _, ?_, hfinal, fun j _ => ?_,
      fun r _ hne => Function.update_of_ne hne _ _⟩
    · rw [reduceVecBinaryOp, hw]
      rfl
    · rw [Function.update_self, if_pos rfl]
  · have hpos : 0 < srcRegs.length := List.length_pos_of_ne_nil hempty
    obtain ⟨result, regs1, r, v, hloop, hone, hext, hv, hiff⟩ :=
      reduceVecLoop_extends h srcRegs.length srcRegs vs e regs (Nat.le_refl _) hpos hruns hreads
    have hdesc := desc_of_grow hext.grows hdst
    have hvlt : v < 2 ^ width := by
      have hvalue : regs1 r % 2 ^ width = v := (Reads.register_iff.mp hv).2.2
      rw [← hvalue]
      exact Nat.mod_lt _ (Nat.two_pow_pos _)
    have hresult := mov_result hvlt
    rw [← hw, ← hdesc] at hresult hv
    have hfinal := @push_runs _ _ _ hext.runs
      { opcode := .mov, src := [.register r], dst := [.register dst] } _ _ _ rfl (.cons hv .nil)
      hresult
    have hne : vs ≠ [] := by
      rintro rfl
      exact hempty (List.forall₂_nil_right_iff.mp hreads)
    refine ⟨Emission.push _ _, Function.update regs1 dst v, ?_, hfinal, fun j hj => ?_,
      fun r' hr' hne' => ?_⟩
    · rw [reduceVecBinaryOp, hw, hloop]
      simp only [ok_bind, hone]
      rfl
    · rw [Function.update_self, if_neg hne]
      refine eq_reduceBits h ((hiff j hj).trans ?_)
      rw [OccursAt, List.mem_map]
    · rw [Function.update_of_ne hne', hext.frame r' hr']

end Vector

/-! ## Both reductions -/

open Emission in
/-- The reduction of a register's bits, with tables of any size that fits the entries or without,
    and the reduction of registers of the destination's width end with the operator applied to all
    bits of all sources. -/
theorem reduction_trees_reduce {reduceOp : BinaryOpType} (hop : reduceOp = .and ∨ reduceOp = .or)
    (supportsLuts : Bool) {smallLutSize : Nat} (hsize : 2 ≤ smallLutSize)
    (hmax : smallLutSize ≤ maxLutSources) {e : Emission} {start regs : Nat → Nat} {dst : Nat}
    (hruns : Runs e start regs) (hdst : dst < e.table.length) :
    (∀ {src x w : Nat}, 0 < w → Reads e regs (.register src) ⟨x, w⟩ →
      (e.table.desc dst).width = 1 →
      ∃ e' regs', reduceBinaryOpOnDevice supportsLuts smallLutSize e src reduceOp dst = .ok e' ∧
        runCombinational e'.table start e'.ops = some regs' ∧
        regs' dst = (reduceBits reduceOp ((List.range w).map x.testBit)).toNat ∧
        ∀ r, r < e.table.length → r ≠ dst → regs' r = regs r) ∧
    ∀ {srcRegs vs : List Nat} (defaultValue : Int),
      ReadsValues e regs (e.table.desc dst).width srcRegs vs →
      ∃ e' regs', reduceVecBinaryOp e srcRegs reduceOp dst defaultValue = .ok e' ∧
        runCombinational e'.table start e'.ops = some regs' ∧
        (∀ j, j < (e.table.desc dst).width → (regs' dst).testBit j =
          if vs = [] then (truncate defaultValue (e.table.desc dst).width).testBit j
          else reduceBits reduceOp (vs.map fun v => v.testBit j)) ∧
        ∀ r, r < e.table.length → r ≠ dst → regs' r = regs r := by
  obtain ⟨z, h⟩ : ∃ z, IsReduction reduceOp z := by
    rcases hop with rfl | rfl
    · exact ⟨false, .inl ⟨rfl, rfl⟩⟩
    · exact ⟨true, .inr ⟨rfl, rfl⟩⟩
  refine ⟨fun {src x w} hw hreads hwidth => ?_, fun defaultValue hreads =>
    reduceVecBinaryOp_runs h defaultValue hruns hdst hreads⟩
  obtain ⟨e', regs', result, hreduce, ⟨hrun, hvalue, hframe⟩, hiff⟩ := reduceBinaryOp_runs h
    (if supportsLuts then some ⟨smallLutSize, hsize, hmax⟩ else none) hw hruns hreads hdst hwidth
  refine ⟨e', regs', ?_, hrun, ?_, hframe⟩
  · rw [← hreduce]
    exact reduceBinaryOpOnDevice_eq supportsLuts ⟨smallLutSize, hsize, hmax⟩ e src reduceOp dst
  · rw [hvalue]
    congr 1
    refine eq_reduceBits h (hiff.trans ?_)
    simp [Occurs]

/-- A register of five bits and a destination, as the pass finds them. -/
def fiveBits : Emission := ⟨[localRegister 5, localRegister 1], []⟩

open Emission in
/-- The AND of five bits, in tables of four sources. -/
theorem reduction_trees_reduce_five_bits :
    ∃ e' regs', reduceBinaryOpOnDevice true 4 fiveBits 0 .and 1 = .ok e' ∧
      runCombinational e'.table (fun r => if r = 0 then 31 else 0) e'.ops = some regs' ∧
      regs' 1 = 1 := by
  have hruns : Runs fiveBits (fun r => if r = 0 then 31 else 0) fun r => if r = 0 then 31 else 0 :=
    fun table _ => rfl
  have hreads : Reads fiveBits (fun r => if r = 0 then 31 else 0) (.register 0) ⟨31, 5⟩ :=
    Reads.register_iff.mpr ⟨by decide, rfl, rfl⟩
  obtain ⟨e', regs', hreduce, hrun, hvalue, -⟩ :=
    (@reduction_trees_reduce .and (.inl rfl) true 4 (by decide) (by decide) _ _ _ 1 hruns
      (by decide)).1 (show 0 < 5 by decide) hreads rfl
  exact ⟨e', regs', hreduce, hrun, hvalue.trans (by decide)⟩

/-- Tables of seven sources do not fit into the entries. -/
theorem reduceBinaryOp_seven_sources :
    reduceBinaryOpOnDevice true 7 ⟨[localRegister 7, localRegister 1], []⟩ 0 .and 1
      = .error (.runtimeError "array index out of bounds") := rfl

end Kanagawa.Optimize
