/-
  Kanagawa.Lib.TwosComplement

  How many bits a result needs.

  `Within m v` says that `v` has a two's complement pattern with `m` bits
  besides the sign: a signed value of width `m + 1`, or an unsigned value of
  width `m` when `v` is not negative.  The lemmas bound the result of each
  arithmetic and bitwise operator by the bounds of its operands.
-/
import Mathlib

namespace Kanagawa.Lib.TwosComplement

/-- `v` fits `m` bits and a sign. -/
def Within (m : Nat) (v : Int) : Prop := -2 ^ m ≤ v ∧ v < 2 ^ m

theorem two_pow_pos (m : Nat) : (0 : Int) < 2 ^ m := Int.pow_pos (by decide)

theorem two_pow_le {m n : Nat} (h : m ≤ n) : (2 : Int) ^ m ≤ 2 ^ n :=
  pow_le_pow_right₀ (by decide) h

theorem Within.mono {m n : Nat} {v : Int} (hv : Within m v) (h : m ≤ n) : Within n v := by
  have hpow := two_pow_le h
  exact ⟨by linarith [hv.1], by linarith [hv.2]⟩

theorem within_of_nonneg {m : Nat} {v : Int} (h0 : 0 ≤ v) (h : v < 2 ^ m) : Within m v :=
  ⟨by linarith [two_pow_pos m], h⟩

/-- A value between zero and one that fits, fits. -/
theorem Within.of_natAbs_le {m : Nat} {v w : Int} (hw : Within m w) (hsign : 0 ≤ w → 0 ≤ v)
    (hsign' : w < 0 → v ≤ 0) (h : v.natAbs ≤ w.natAbs) : Within m v := by
  obtain ⟨hlo, hhi⟩ := hw
  rcases lt_or_ge w 0 with hneg | hnn
  · have := hsign' hneg
    have hp := two_pow_pos m
    exact ⟨by omega, by omega⟩
  · have := hsign hnn
    have hp := two_pow_pos m
    exact ⟨by omega, by omega⟩

/-! ## Sums and products -/

theorem Within.add {m : Nat} {v w : Int} (hv : Within m v) (hw : Within m w) :
    Within (m + 1) (v + w) := by
  have hpow : (2 : Int) ^ (m + 1) = 2 ^ m + 2 ^ m := by ring
  exact ⟨by rw [hpow]; linarith [hv.1, hw.1], by rw [hpow]; linarith [hv.2, hw.2]⟩

theorem Within.sub {m : Nat} {v w : Int} (hv : Within m v) (hw : Within m w) :
    Within (m + 1) (v - w) := by
  have hpow : (2 : Int) ^ (m + 1) = 2 ^ m + 2 ^ m := by ring
  exact ⟨by rw [hpow]; linarith [hv.1, hw.2], by rw [hpow]; linarith [hv.2, hw.1]⟩

/-- The difference of two values that are not negative needs no carry. -/
theorem within_sub_of_nonneg {m : Nat} {v w : Int} (hv0 : 0 ≤ v) (hv : v < 2 ^ m) (hw0 : 0 ≤ w)
    (hw : w < 2 ^ m) : Within m (v - w) :=
  ⟨by linarith, by linarith⟩

theorem Within.neg {m : Nat} {v : Int} (hv : Within m v) : Within (m + 1) (-v) := by
  have hzero : Within m 0 := within_of_nonneg le_rfl (two_pow_pos m)
  simpa only [zero_sub] using hzero.sub hv

theorem Within.abs_le_two_pow {m : Nat} {v : Int} (hv : Within m v) : |v| ≤ 2 ^ m :=
  abs_le.mpr ⟨hv.1, hv.2.le⟩

/-- Both factors may be the most negative value, so that the product takes one
    more bit. -/
theorem Within.mul {m n : Nat} {v w : Int} (hv : Within m v) (hw : Within n w) :
    Within (m + n + 1) (v * w) := by
  have habs : |v * w| ≤ 2 ^ (m + n) := by
    rw [abs_mul, pow_add]
    exact mul_le_mul hv.abs_le_two_pow hw.abs_le_two_pow (abs_nonneg w) (two_pow_pos m).le
  have hpow : (2 : Int) ^ (m + n + 1) = 2 ^ (m + n) + 2 ^ (m + n) := by ring
  have hpos := two_pow_pos (m + n)
  obtain ⟨hlo, hhi⟩ := abs_le.mp habs
  exact ⟨by rw [hpow]; linarith, by rw [hpow]; linarith⟩

/-- A factor that is not negative needs no sign of its own. -/
theorem Within.mul_of_nonneg {m n : Nat} {v w : Int} (hv : Within m v) (hw0 : 0 ≤ w)
    (hw : w ≤ 2 ^ n) : Within (m + n) (v * w) := by
  obtain ⟨hlo, hhi⟩ := hv
  have hpow : (2 : Int) ^ (m + n) = 2 ^ m * 2 ^ n := pow_add 2 m n
  have hm := two_pow_pos m
  have hn := two_pow_pos n
  constructor
  · calc -2 ^ (m + n) = -2 ^ m * 2 ^ n := by rw [hpow]; ring
      _ ≤ -2 ^ m * w := by nlinarith
      _ ≤ v * w := mul_le_mul_of_nonneg_right hlo hw0
  · calc v * w ≤ (2 ^ m - 1) * w := mul_le_mul_of_nonneg_right (by omega) hw0
      _ ≤ (2 ^ m - 1) * 2 ^ n := mul_le_mul_of_nonneg_left hw (by omega)
      _ < 2 ^ (m + n) := by rw [hpow]; linarith [sub_mul ((2 : Int) ^ m) 1 (2 ^ n)]

/-! ## Quotients and remainders -/

theorem Within.tdiv {m : Nat} {v w : Int} (hv : Within m v) (hw : 0 ≤ w) :
    Within m (v.tdiv w) :=
  hv.of_natAbs_le (fun h => Int.tdiv_nonneg h hw)
    (fun h => by
      have := Int.tdiv_nonneg (a := -v) (b := w) (by omega) hw
      rw [Int.neg_tdiv] at this
      omega)
    (Int.natAbs_tdiv_le_natAbs v w)

theorem natAbs_tmod_le (v w : Int) : (v.tmod w).natAbs ≤ v.natAbs := by
  rw [Int.natAbs_tmod]
  exact Nat.mod_le _ _

theorem Within.tmod {m : Nat} {v : Int} (hv : Within m v) (w : Int) : Within m (v.tmod w) :=
  hv.of_natAbs_le (fun h => Int.tmod_nonneg w h)
    (fun h => by
      have := Int.tmod_nonneg w (a := -v) (by omega)
      rw [Int.neg_tmod] at this
      omega)
    (natAbs_tmod_le v w)

/-- A remainder is smaller than the divisor. -/
theorem within_tmod_of_le {m : Nat} {v w : Int} (hw0 : 0 < w) (hw : w ≤ 2 ^ m) :
    Within m (v.tmod w) := by
  have hlt := Int.tmod_lt_of_pos v hw0
  have hgt := Int.lt_tmod_of_pos v hw0
  exact ⟨by omega, by omega⟩

/-- Dividing by `2 ^ n` drops `n` bits. -/
theorem Within.ediv_two_pow {m n : Nat} {v : Int} (hv : Within m v) :
    Within (m - n) (v / 2 ^ n) := by
  have hn := two_pow_pos n
  have hpow : (2 : Int) ^ m ≤ 2 ^ (m - n) * 2 ^ n := by
    rw [← pow_add]
    exact two_pow_le (by omega)
  constructor
  · rw [Int.le_ediv_iff_mul_le hn]
    linarith [hv.1]
  · rw [Int.ediv_lt_iff_lt_mul hn]
    linarith [hv.2]

/-- Dropping more bits changes nothing iff all of them are copies of the sign. -/
theorem ediv_two_pow_eq_iff {v : Int} {m n : Nat} (hmn : m < n) :
    v / 2 ^ m = v / 2 ^ n ↔ Within m v := by
  have hm := two_pow_pos m
  have hsplit : v / 2 ^ n = v / 2 ^ m / 2 ^ (n - m) := by
    rw [Int.ediv_ediv_of_nonneg hm.le, ← pow_add, Nat.add_sub_cancel' hmn.le]
  have htwo : (2 : Int) ≤ 2 ^ (n - m) := by
    calc (2 : Int) = 2 ^ 1 := rfl
      _ ≤ 2 ^ (n - m) := two_pow_le (by omega)
  have hlow := Int.mul_ediv_add_emod v (2 ^ m)
  have hnn := Int.emod_nonneg v hm.ne'
  have hlt := Int.emod_lt_of_pos v hm
  rw [hsplit]
  generalize v / 2 ^ m = q at hlow ⊢
  generalize (2 : Int) ^ (n - m) = d at htwo ⊢
  constructor
  · intro hq
    -- a quotient by two or more that stays the same is 0 or -1
    have hdm := Int.mul_ediv_add_emod q d
    have hr0 := Int.emod_nonneg q (show d ≠ 0 by omega)
    have hr := Int.emod_lt_of_pos q (show 0 < d by omega)
    rw [← hq] at hdm
    have hbounds : q = 0 ∨ q = -1 := by
      rcases lt_trichotomy q 0 with h | h | h
      · right
        nlinarith
      · exact .inl h
      · nlinarith
    rcases hbounds with rfl | rfl
    · exact ⟨by omega, by omega⟩
    · exact ⟨by omega, by omega⟩
  · rintro ⟨hlo, hhi⟩
    have hq : q = 0 ∨ q = -1 := by
      have h1 : -1 ≤ q := by
        by_contra hc
        have : 2 ^ m * q ≤ 2 ^ m * (-2) := mul_le_mul_of_nonneg_left (by omega) hm.le
        linarith
      have h2 : q ≤ 0 := by
        by_contra hc
        have : 2 ^ m * 1 ≤ 2 ^ m * q := mul_le_mul_of_nonneg_left (by omega) hm.le
        linarith
      omega
    rcases hq with rfl | rfl
    · rw [Int.zero_ediv]
    · symm
      rw [Int.ediv_eq_iff_of_pos (by omega)]
      constructor <;> omega

/-- Division toward zero drops as many bits as the divisor has. -/
theorem Within.tdiv_of_two_pow_le {m n : Nat} {v w : Int} (hv : Within m v) (hw : 2 ^ n ≤ w) :
    Within (m - n) (v.tdiv w) := by
  have hn := two_pow_pos n
  have hpow : (2 : Int) ^ m ≤ 2 ^ (m - n) * 2 ^ n := by
    rw [← pow_add]
    exact two_pow_le (by omega)
  have hprod : (2 : Int) ^ (m - n) * 2 ^ n ≤ 2 ^ (m - n) * w :=
    mul_le_mul_of_nonneg_left hw (two_pow_pos _).le
  have hw0 : 0 < w := lt_of_lt_of_le hn hw
  obtain ⟨hlo, hhi⟩ := hv
  rcases lt_or_ge v 0 with hneg | hnn
  · have hle : (-v).tdiv w ≤ 2 ^ (m - n) := by
      rw [Int.tdiv_eq_ediv_of_nonneg (by omega)]
      exact Int.ediv_le_of_le_mul hw0 (by linarith)
    have hq := Int.tdiv_nonneg (a := -v) (b := w) (by omega) hw0.le
    rw [Int.neg_tdiv] at hle hq
    have hp := two_pow_pos (m - n)
    exact ⟨by omega, by omega⟩
  · have hlt : v.tdiv w < 2 ^ (m - n) := by
      rw [Int.tdiv_eq_ediv_of_nonneg hnn]
      exact Int.ediv_lt_of_lt_mul hw0 (by linarith)
    exact within_of_nonneg (Int.tdiv_nonneg hnn hw0.le) hlt

/-! ## Bitwise operators -/

theorem within_zero_iff {v : Int} : Within 0 v ↔ v = 0 ∨ v = -1 := by
  simp only [Within, pow_zero]
  omega

theorem within_bit_iff {m : Nat} {b : Bool} {v : Int} :
    Within (m + 1) (Int.bit b v) ↔ Within m v := by
  simp only [Within, Int.bit_val, pow_succ]
  cases b <;> simp only [Bool.cond_true, Bool.cond_false] <;> omega

theorem exists_bit_self {v : Int} (hv : v = 0 ∨ v = -1) : ∃ b, v = Int.bit b v := by
  rcases hv with rfl | rfl
  · exact ⟨false, rfl⟩
  · exact ⟨true, rfl⟩

/-- A bitwise operator never needs more bits than its operands. -/
theorem Within.bitwise (f : Bool → Bool → Bool) {m : Nat} {v w : Int} (hv : Within m v)
    (hw : Within m w) : Within m (Int.bitwise f v w) := by
  induction m generalizing v w with
  | zero =>
      rw [within_zero_iff] at hv hw ⊢
      obtain ⟨b, hb⟩ := exists_bit_self hv
      obtain ⟨c, hc⟩ := exists_bit_self hw
      -- the result is its own half, so that all of its bits are the same
      have hself : Int.bitwise f v w = Int.bit (f b c) (Int.bitwise f v w) := by
        conv_lhs => rw [hb, hc, Int.bitwise_bit]
      rw [Int.bit_val] at hself
      generalize f b c = d at hself
      cases d <;> simp only [Bool.cond_true, Bool.cond_false] at hself <;> omega
  | succ m ih =>
      rw [← Int.bit_decomp v, within_bit_iff] at hv
      rw [← Int.bit_decomp w, within_bit_iff] at hw
      rw [← Int.bit_decomp v, ← Int.bit_decomp w, Int.bitwise_bit, within_bit_iff]
      exact ih hv hw

theorem Within.land {m : Nat} {v w : Int} (hv : Within m v) (hw : Within m w) :
    Within m (Int.land v w) := by
  rw [← Int.bitwise_and]
  exact hv.bitwise and hw

theorem Within.lor {m : Nat} {v w : Int} (hv : Within m v) (hw : Within m w) :
    Within m (Int.lor v w) := by
  rw [← Int.bitwise_or]
  exact hv.bitwise or hw

theorem Within.xor {m : Nat} {v w : Int} (hv : Within m v) (hw : Within m w) :
    Within m (Int.xor v w) := by
  rw [← Int.bitwise_xor]
  exact hv.bitwise Bool.xor hw

theorem land_comm (v w : Int) : Int.land v w = Int.land w v := by
  cases v <;> cases w <;> simp only [Int.land, Nat.and_comm, Nat.or_comm]

theorem lor_nonneg {v w : Int} (hv : 0 ≤ v) (hw : 0 ≤ w) : 0 ≤ Int.lor v w := by
  lift v to Nat using hv
  lift w to Nat using hw
  exact Int.natCast_nonneg _

theorem xor_nonneg {v w : Int} (hv : 0 ≤ v) (hw : 0 ≤ w) : 0 ≤ Int.xor v w := by
  lift v to Nat using hv
  lift w to Nat using hw
  exact Int.natCast_nonneg _

theorem land_nonneg {v : Int} (hv : 0 ≤ v) (w : Int) : 0 ≤ Int.land v w := by
  lift v to Nat using hv
  cases w <;> exact Int.natCast_nonneg _

/-- Masking a value that is not negative keeps it below every power of two
    above it, whatever the sign of the mask. -/
theorem land_lt_two_pow {m : Nat} {v : Int} (hv0 : 0 ≤ v) (hv : v < 2 ^ m) (w : Int) :
    Int.land v w < 2 ^ m := by
  lift v to Nat using hv0
  have hv : v < 2 ^ m := by exact_mod_cast hv
  have hbits : ∀ i ≥ m, v.testBit i = false := fun i hi =>
    Nat.testBit_lt_two_pow (Nat.lt_of_lt_of_le hv (Nat.pow_le_pow_right (by decide) hi))
  cases w with
  | ofNat w =>
      have h : v &&& w < 2 ^ m := Nat.lt_pow_two_of_testBit _ fun i hi => by
        rw [Nat.testBit_and, hbits i hi, Bool.false_and]
      show ((v &&& w : Nat) : Int) < 2 ^ m
      exact_mod_cast h
  | negSucc w =>
      have h : Nat.ldiff v w < 2 ^ m := Nat.lt_pow_two_of_testBit _ fun i hi => by
        rw [Nat.testBit_ldiff, hbits i hi, Bool.false_and]
      show ((Nat.ldiff v w : Nat) : Int) < 2 ^ m
      exact_mod_cast h

end Kanagawa.Lib.TwosComplement
