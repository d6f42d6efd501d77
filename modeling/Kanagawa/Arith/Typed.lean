/-
  Kanagawa.Arith.Typed

  Integers in the range of a type and the literals that stand for them.

  A signed literal of `m + 1` bits stands for the integers from -2^m up to 2^m,
  an unsigned one of `m` bits for those from zero up to 2^m.  Truncating an
  integer of the range to the width and reading it back gives the integer.
-/
import Kanagawa.Arith.Exact
import Kanagawa.Lib.TwosComplement

namespace Kanagawa

open Lib.Bits Lib.TwosComplement

theorem natCast_truncate_of_lt {v : Int} {w : Nat} (h0 : 0 ≤ v) (hv : v < 2 ^ w) :
    (truncate v w : Int) = v := by
  rw [truncate_eq, Int.emod_eq_of_lt h0 hv, Int.toNat_of_nonneg h0]

/-- The integer of an unsigned literal. -/
theorem denote_truncate_of_nonneg {v : Int} {w : Nat} (h0 : 0 ≤ v) (hv : v < 2 ^ w) :
    Literal.denote ⟨truncate v w, w⟩ false = v := by
  rw [Literal.denote_of_not_negative (Literal.negative_false _)]
  exact natCast_truncate_of_lt h0 hv

/-- The integer of a signed literal. -/
theorem denote_truncate_of_within {v : Int} {m : Nat} (h : Within m v) :
    Literal.denote ⟨truncate v (m + 1), m + 1⟩ true = v := by
  have hpow : (2 : Int) ^ (m + 1) = 2 * 2 ^ m := by ring
  have hlow := h.1
  have hhigh := h.2
  have hlt := truncate_lt v (m + 1)
  by_cases hneg : v < 0
  · have hvalue : (truncate v (m + 1) : Int) = v + 2 ^ (m + 1) := by
      rw [truncate_eq, ← Int.add_emod_right, Int.emod_eq_of_lt (by omega) (by omega),
        Int.toNat_of_nonneg (by omega)]
    have hle : 2 ^ m ≤ truncate v (m + 1) := by
      have hcast : ((2 ^ m : Nat) : Int) ≤ truncate v (m + 1) := by
        rw [hvalue]
        push_cast
        omega
      exact_mod_cast hcast
    have hbit : Literal.negative ⟨truncate v (m + 1), m + 1⟩ true = true :=
      Nat.testBit_of_two_pow_le_and_two_pow_add_one_gt hle hlt
    rw [Literal.denote_of_negative hbit, hvalue]
    ring
  · have hvalue : (truncate v (m + 1) : Int) = v :=
      natCast_truncate_of_lt (by omega) (by omega)
    have hsmall : truncate v (m + 1) < 2 ^ m := by
      have hcast : (truncate v (m + 1) : Int) < (2 ^ m : Nat) := by
        rw [hvalue]
        push_cast
        exact hhigh
      exact_mod_cast hcast
    have hbit : Literal.negative ⟨truncate v (m + 1), m + 1⟩ true = false :=
      Nat.testBit_lt_two_pow hsmall
    rw [Literal.denote_of_not_negative hbit]
    exact hvalue

/-- The range of a signed literal. -/
theorem within_denote {l : Literal} {m : Nat} (hl : l.value < 2 ^ l.width)
    (hw : l.width = m + 1) : Within m (l.denote true) := by
  have hpow : 2 ^ (m + 1) = 2 * 2 ^ m := by ring
  rw [hw] at hl
  have hbit : l.negative true = l.value.testBit m := by
    rw [Literal.negative, hw]
    rfl
  cases hneg : l.negative true with
  | true =>
      have hle := Nat.ge_two_pow_of_testBit (hbit.symm.trans hneg)
      rw [Literal.denote_of_negative hneg, hw]
      constructor
      · have : ((2 ^ m : Nat) : Int) ≤ l.value := by exact_mod_cast hle
        push_cast at this
        rw [show (2 : Int) ^ (m + 1) = 2 * 2 ^ m by ring]
        omega
      · have : (l.value : Int) < (2 ^ (m + 1) : Nat) := by exact_mod_cast hl
        push_cast at this
        have hpos := two_pow_pos m
        omega
  | false =>
      have hlt : l.value < 2 ^ m := by
        apply Nat.lt_of_not_le
        intro hle
        have := Nat.testBit_of_two_pow_le_and_two_pow_add_one_gt hle hl
        rw [← hbit, hneg] at this
        cases this
      rw [Literal.denote_of_not_negative hneg]
      apply within_of_nonneg (Int.natCast_nonneg _)
      exact_mod_cast hlt

/-! ## Both kinds of types -/

/-- The integers of a type. -/
def InType (signed : Bool) (w : Nat) (v : Int) : Prop :=
  if signed then Within (w - 1) v else 0 ≤ v ∧ v < 2 ^ w

variable {signed : Bool} {v : Int} {w : Nat}

theorem denote_truncate_of_inType (hw : 0 < w) (h : InType signed w v) :
    Literal.denote ⟨truncate v w, w⟩ signed = v := by
  obtain ⟨m, rfl⟩ : ∃ m, w = m + 1 := ⟨w - 1, by omega⟩
  cases signed with
  | true => exact denote_truncate_of_within h
  | false => exact denote_truncate_of_nonneg h.1 h.2

theorem inType_denote {l : Literal} (hl : l.value < 2 ^ l.width) (hw : 0 < l.width) :
    InType signed l.width (l.denote signed) := by
  cases signed with
  | true => exact within_denote hl (by omega)
  | false =>
      rw [Literal.denote_of_not_negative (Literal.negative_false _)]
      refine ⟨Int.natCast_nonneg _, ?_⟩
      exact_mod_cast hl

theorem inType_denote_mk {value : Nat} (signed : Bool) (hvalue : value < 2 ^ w) (hw : 0 < w) :
    InType signed w (Literal.denote ⟨value, w⟩ signed) :=
  inType_denote (show (Literal.mk value w).value < 2 ^ (Literal.mk value w).width from hvalue) hw

theorem InType.mono (h : InType signed w v) {w' : Nat} (hw : w ≤ w') : InType signed w' v := by
  cases signed with
  | true => exact Within.mono h (Nat.sub_le_sub_right hw 1)
  | false =>
      have hpow : (2 : Int) ^ w ≤ 2 ^ w' := two_pow_le hw
      exact ⟨h.1, lt_of_lt_of_le h.2 hpow⟩

/-- Adding low bits. -/
theorem InType.mul_two_pow (h : InType signed w v) (hw : 0 < w) {n : Nat} :
    InType signed (w + n) (v * 2 ^ n) := by
  have hn := two_pow_pos n
  cases signed with
  | true =>
      have hwithin : Within (w - 1) v := h
      have hpow : (2 : Int) ^ (w + n - 1) = 2 ^ (w - 1) * 2 ^ n := by
        rw [← pow_add]
        congr 1
        omega
      constructor
      · rw [hpow, ← neg_mul]
        exact mul_le_mul_of_nonneg_right hwithin.1 hn.le
      · rw [hpow]
        exact mul_lt_mul_of_pos_right hwithin.2 hn
  | false =>
      refine ⟨mul_nonneg h.1 hn.le, ?_⟩
      rw [pow_add]
      exact mul_lt_mul_of_pos_right h.2 hn

/-- Dropping the low bits. -/
theorem InType.ediv_two_pow {o : Nat} (h : InType signed (o + w) v) (hw : 0 < w) :
    InType signed w (v / 2 ^ o) := by
  cases signed with
  | true =>
      have hwithin : Within (o + w - 1 - o) (v / 2 ^ o) := Within.ediv_two_pow h
      rwa [show o + w - 1 - o = w - 1 by omega] at hwithin
  | false =>
      refine ⟨Int.ediv_nonneg h.1 (two_pow_pos o).le, ?_⟩
      apply Int.ediv_lt_of_lt_mul (two_pow_pos o)
      rw [← Int.pow_add, Nat.add_comm]
      exact h.2

/-- The bits of a type determine its integer modulo two to the width. -/
theorem truncate_ediv_of_modEq {x y : Int} {o s n : Nat} (h : x ≡ y [ZMOD 2 ^ n])
    (hn : o + s ≤ n) : truncate (x / 2 ^ o) s = truncate (y / 2 ^ o) s := by
  rw [truncate_eq (y / 2 ^ o)]
  apply truncate_eq_of_modEq
  obtain ⟨c, hc⟩ := Int.modEq_iff_dvd.mp h.symm
  have hpow : (2 : Int) ^ n = 2 ^ o * (2 ^ s * 2 ^ (n - o - s)) := by
    rw [← pow_add, ← pow_add]
    congr 1
    omega
  have hx : x = y + 2 ^ o * (2 ^ s * (2 ^ (n - o - s) * c)) := by
    rw [← sub_eq_iff_eq_add', hc, hpow]
    ring
  rw [hx, Int.add_mul_ediv_left _ _ (two_pow_pos o).ne']
  exact Int.modEq_iff_dvd.mpr ⟨-(2 ^ (n - o - s) * c), by ring⟩

end Kanagawa
