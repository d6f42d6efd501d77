/-
  Kanagawa.Lib.Bits

  Bit patterns and the integers they stand for.

  Arbitrary-precision integers are used as bit vectors of no fixed width:
  bitwise operators act on the infinite two's complement expansion, and a
  result is cut to `n` bits by masking.  This file proves the two facts that
  make such code tractable, namely that every bitwise operator respects
  congruence modulo `2 ^ n`, and that masking with `2 ^ n - 1` is reduction
  modulo `2 ^ n`.
-/
import Mathlib

namespace Kanagawa.Lib.Bits

/-! ## Congruence modulo a power of two, bit by bit -/

/-- Two integers agree modulo `2 ^ (n + 1)` iff they have the same lowest bit
    and their halves agree modulo `2 ^ n`. -/
theorem modEq_bit_iff (a b : Bool) (x y : Int) (n : Nat) :
    Int.bit a x ≡ Int.bit b y [ZMOD 2 ^ (n + 1)] ↔ a = b ∧ x ≡ y [ZMOD 2 ^ n] := by
  simp only [Int.bit_val, Int.modEq_iff_dvd]
  have hpow : (2 : Int) ^ (n + 1) = 2 * 2 ^ n := by ring
  rw [hpow]
  constructor
  · rintro ⟨k, hk⟩
    rw [mul_assoc] at hk
    have hab : a = b := by
      cases a <;> cases b <;> simp only [Bool.cond_true, Bool.cond_false] at hk ⊢ <;> omega
    subst hab
    exact ⟨rfl, k, by omega⟩
  · rintro ⟨rfl, k, hk⟩
    exact ⟨k, by linear_combination 2 * hk⟩

/-- Bitwise operators respect congruence modulo a power of two. -/
theorem bitwise_modEq (f : Bool → Bool → Bool) (n : Nat) {x x' y y' : Int}
    (hx : x ≡ x' [ZMOD 2 ^ n]) (hy : y ≡ y' [ZMOD 2 ^ n]) :
    Int.bitwise f x y ≡ Int.bitwise f x' y' [ZMOD 2 ^ n] := by
  induction n generalizing x x' y y' with
  | zero => simp [Int.modEq_one]
  | succ n ih =>
      rw [← Int.bit_decomp x, ← Int.bit_decomp x'] at hx
      rw [← Int.bit_decomp y, ← Int.bit_decomp y'] at hy
      rw [← Int.bit_decomp x, ← Int.bit_decomp x', ← Int.bit_decomp y, ← Int.bit_decomp y',
        Int.bitwise_bit, Int.bitwise_bit]
      obtain ⟨hxb, hxd⟩ := (modEq_bit_iff _ _ _ _ n).mp hx
      obtain ⟨hyb, hyd⟩ := (modEq_bit_iff _ _ _ _ n).mp hy
      exact (modEq_bit_iff _ _ _ _ n).mpr ⟨by rw [hxb, hyb], ih hxd hyd⟩

/-! ### Ones -/

theorem land_neg_one (x : Int) : Int.land x (-1) = x := by
  cases x with
  | ofNat m =>
      show ((m.ldiff 0 : Nat) : Int) = m
      congr 1
      refine Nat.eq_of_testBit_eq fun i => ?_
      simp [Nat.testBit_ldiff]
  | negSucc m =>
      show Int.negSucc (m ||| 0) = Int.negSucc m
      rw [Nat.or_zero]

theorem lor_neg_one (x : Int) : Int.lor x (-1) = -1 := by
  cases x with
  | ofNat m =>
      show Int.negSucc (Nat.ldiff 0 m) = Int.negSucc 0
      congr 1
      refine Nat.eq_of_testBit_eq fun i => ?_
      simp [Nat.testBit_ldiff]
  | negSucc m =>
      show Int.negSucc (m &&& 0) = Int.negSucc 0
      rw [Nat.and_zero]

theorem xor_neg_one (x : Int) : Int.xor x (-1) = Int.lnot x := by
  cases x with
  | ofNat m =>
      show Int.negSucc (m ^^^ 0) = Int.negSucc m
      rw [Nat.xor_zero]
  | negSucc m =>
      show ((m ^^^ 0 : Nat) : Int) = m
      rw [Nat.xor_zero]

theorem natCast_two_pow_sub_one (w : Nat) : ((2 ^ w - 1 : Nat) : Int) = 2 ^ w - 1 := by
  push_cast [Nat.one_le_two_pow]
  rfl

theorem lor_ones {m w : Nat} (h : m < 2 ^ w) : Int.lor m (2 ^ w - 1) = 2 ^ w - 1 := by
  rw [← natCast_two_pow_sub_one]
  show ((m ||| (2 ^ w - 1) : Nat) : Int) = _
  congr 1
  refine Nat.eq_of_testBit_eq fun i => ?_
  rw [Nat.testBit_or, Nat.testBit_two_pow_sub_one]
  by_cases hi : i < w
  · simp [hi]
  · have hle : 2 ^ w ≤ 2 ^ i := Nat.pow_le_pow_right (by decide) (by omega)
    rw [Nat.testBit_lt_two_pow (by omega)]
    simp

theorem lor_comm (v w : Int) : Int.lor v w = Int.lor w v := by
  cases v <;> cases w <;> simp only [Int.lor, Nat.and_comm, Nat.or_comm]

theorem xor_comm (v w : Int) : Int.xor v w = Int.xor w v := by
  cases v <;> cases w <;> simp only [Int.xor, Nat.xor_comm]

/-- Masking with `2 ^ n - 1` is reduction modulo `2 ^ n`, also for negative
    integers. -/
theorem land_two_pow_sub_one (x : Int) (n : Nat) :
    Int.land x (2 ^ n - 1) = x % 2 ^ n := by
  induction n generalizing x with
  | zero =>
      cases x with
      | ofNat m => simp [Int.land]
      | negSucc m => simp [Int.land, Nat.ldiff]
  | succ n ih =>
      have hmask : (2 : Int) ^ (n + 1) - 1 = Int.bit true (2 ^ n - 1) := by
        simp only [Int.bit_val, Bool.cond_true]; ring
      rw [hmask, ← Int.bit_decomp x, Int.land_bit, ih, Bool.and_true]
      generalize Int.bodd x = b
      generalize Int.div2 x = m
      have hp : (0 : Int) < 2 ^ n := Int.pow_pos (by decide)
      have hlt := Int.emod_lt_of_pos m hp
      have hnn := Int.emod_nonneg m hp.ne'
      have hpow : (2 : Int) ^ (n + 1) = 2 * 2 ^ n := by ring
      have hdm := Int.mul_ediv_add_emod m (2 ^ n)
      symm
      rw [Int.emod_eq_iff (by rw [hpow]; omega)]
      refine ⟨?_, ?_, -(m / 2 ^ n), ?_⟩
      · cases b <;> simp [Int.bit_val] <;> omega
      · rw [hpow, Int.natAbs_of_nonneg (by omega)]
        cases b <;> simp [Int.bit_val] <;> omega
      · simp only [Int.bit_val, hpow]
        linear_combination 2 * hdm

/-- Bit `m` is clear iff the residue modulo `2 ^ (m + 1)` is in the lower half. -/
theorem land_two_pow_eq_zero_iff (x : Int) (m : Nat) :
    Int.land x (2 ^ m) = 0 ↔ x % 2 ^ (m + 1) < 2 ^ m := by
  induction m generalizing x with
  | zero =>
      have h := land_two_pow_sub_one x 1
      rw [show (2 : Int) ^ 1 - 1 = 2 ^ 0 by decide] at h
      rw [h]
      omega
  | succ m ih =>
      have hdouble : (2 : Int) ^ (m + 1) = 2 * 2 ^ m := by ring
      rw [← Int.bit_decomp x]
      generalize Int.bodd x = b
      generalize Int.div2 x = y
      have hp : (0 : Int) < 2 ^ (m + 1) := Int.pow_pos (by decide)
      have hlt := Int.emod_lt_of_pos y hp
      have hnn := Int.emod_nonneg y hp.ne'
      have hdm := Int.mul_ediv_add_emod y (2 ^ (m + 1))
      have hpow : (2 : Int) ^ (m + 1 + 1) = 2 * 2 ^ (m + 1) := by ring
      have hmod : Int.bit b y % 2 ^ (m + 1 + 1) = Int.bit b (y % 2 ^ (m + 1)) := by
        rw [Int.emod_eq_iff (by rw [hpow]; omega)]
        refine ⟨?_, ?_, -(y / 2 ^ (m + 1)), ?_⟩
        · cases b <;> simp [Int.bit_val] <;> omega
        · rw [hpow, Int.natAbs_of_nonneg (by omega)]
          cases b <;> simp [Int.bit_val] <;> omega
        · simp only [Int.bit_val, hpow]
          linear_combination 2 * hdm
      have hland : Int.land (Int.bit b y) (2 ^ (m + 1)) = 2 * Int.land y (2 ^ m) := by
        rw [show (2 : Int) ^ (m + 1) = Int.bit false (2 ^ m) by rw [hdouble, Int.bit_val]; simp,
          Int.land_bit, Bool.and_false, Int.bit_val, Bool.cond_false, add_zero]
      have hhalf := ih y
      rw [hmod, hland, Int.bit_val]
      cases b <;> simp only [Bool.cond_true, Bool.cond_false] <;> omega

/-! ## Loops that set bits -/

/-- A loop that sets a bit for each element that asks for it. -/
theorem testBit_foldl_lor {α : Type} (l : List α) (set : α → Bool) (bit : α → Nat) (c : Nat) :
    ∀ init : Nat, (l.foldl (fun acc a => if set a then acc ||| 2 ^ bit a else acc) init).testBit c =
      (init.testBit c || l.any fun a => set a && bit a == c) := by
  induction l with
  | nil => exact fun init => (Bool.or_false _).symm
  | cons a l ih =>
      intro init
      rw [List.foldl_cons, ih, List.any_cons]
      cases hset : set a with
      | false => simp only [Bool.false_eq_true, if_false, Bool.false_and, Bool.false_or]
      | true =>
          simp only [if_true, Bool.true_and, Nat.testBit_lor, Nat.testBit_two_pow, Bool.or_assoc,
            beq_eq_decide]

/-- A loop that joins numbers bit by bit. -/
theorem testBit_foldl_or {α : Type} (l : List α) (f : α → Nat) (c : Nat) : ∀ init : Nat,
    (l.foldl (fun acc a => acc ||| f a) init).testBit c =
      (init.testBit c || l.any fun a => (f a).testBit c) := by
  induction l with
  | nil => exact fun init => (Bool.or_false _).symm
  | cons a l ih =>
      intro init
      rw [List.foldl_cons, ih, Nat.testBit_or, List.any_cons, Bool.or_assoc]

/-- A loop that sets the bit of each position whose element has a property. -/
theorem testBit_foldl_zipIdx {α : Type} (l : List α) (p : α → Bool) (c : Nat) :
    (l.zipIdx.foldl (fun (row : Nat) (q : α × Nat) => if p q.1 then row ||| 2 ^ q.2 else row) 0).testBit c =
      l[c]?.any p := by
  rw [testBit_foldl_lor l.zipIdx (fun q => p q.1) (fun q => q.2), Nat.zero_testBit, Bool.false_or,
    Bool.eq_iff_iff, List.any_eq_true, Option.any_eq_true]
  constructor
  · rintro ⟨q, hq, hset⟩
    rw [Bool.and_eq_true, beq_iff_eq] at hset
    exact ⟨q.1, hset.2 ▸ List.mem_zipIdx_iff_getElem?.mp hq, hset.1⟩
  · rintro ⟨a, ha, hset⟩
    refine ⟨(a, c), List.mem_zipIdx_iff_getElem?.mpr ha, ?_⟩
    rw [Bool.and_eq_true, beq_iff_eq]
    exact ⟨hset, rfl⟩

/-! ## Bits of integers -/

/-- Integers with the same bits are equal. -/
theorem eq_of_testBit_eq {x y : Int} (h : ∀ j, x.testBit j = y.testBit j) : x = y := by
  -- Far enough up, the bits of a number and of a negative one differ
  have hsign : ∀ m n : Nat, (∀ j, m.testBit j = !n.testBit j) → False := by
    intro m n hbits
    have hm : m < 2 ^ (m + n) :=
      Nat.lt_of_le_of_lt (Nat.le_add_right m n) Nat.lt_two_pow_self
    have hn : n < 2 ^ (m + n) :=
      Nat.lt_of_le_of_lt (Nat.le_add_left n m) Nat.lt_two_pow_self
    have hbit := hbits (m + n)
    rw [Nat.testBit_lt_two_pow hm, Nat.testBit_lt_two_pow hn] at hbit
    exact Bool.false_ne_true hbit
  cases x with
  | ofNat m =>
      cases y with
      | ofNat n => exact congrArg Int.ofNat (Nat.eq_of_testBit_eq h)
      | negSucc n => exact (hsign m n h).elim
  | negSucc m =>
      cases y with
      | ofNat n => exact (hsign n m fun j => (h j).symm).elim
      | negSucc n =>
          have hnat := Nat.eq_of_testBit_eq fun j => Bool.not_inj (h j)
          rw [hnat]

/-- A bit of the infinite two's complement expansion. -/
theorem testBit_eq_decide (x : Int) (j : Nat) : x.testBit j = decide (x / 2 ^ j % 2 = 1) := by
  cases x with
  | ofNat m =>
      show Nat.testBit m j = decide ((m : Int) / 2 ^ j % 2 = 1)
      rw [Nat.testBit_eq_decide_div_mod_eq]
      congr 1
      rw [eq_iff_iff]
      exact_mod_cast Iff.rfl
  | negSucc m =>
      show (!Nat.testBit m j) = decide (Int.negSucc m / 2 ^ j % 2 = 1)
      have hdiv : Int.negSucc m / 2 ^ j = -((m / 2 ^ j : Nat) : Int) - 1 := by
        rw [Int.negSucc_ediv m (by positivity)]
        show -((m : Int) / 2 ^ j + 1) = _
        push_cast
        ring
      rw [Nat.testBit_eq_decide_div_mod_eq, hdiv, Bool.eq_iff_iff]
      simp only [Bool.not_eq_true', decide_eq_false_iff_not, decide_eq_true_eq]
      omega

theorem testBit_mul_two_pow (x : Int) (k j : Nat) :
    (x * 2 ^ k).testBit j = (decide (k ≤ j) && x.testBit (j - k)) := by
  rw [testBit_eq_decide, testBit_eq_decide]
  rcases Nat.lt_or_ge j k with hlt | hge
  · obtain ⟨n, rfl⟩ := Nat.exists_eq_add_of_lt hlt
    have hdiv : x * 2 ^ (j + n + 1) / 2 ^ j = x * 2 ^ n * 2 := by
      rw [show x * 2 ^ (j + n + 1) = x * 2 ^ n * 2 * 2 ^ j by ring]
      exact Int.mul_ediv_cancel _ (by positivity)
    rw [hdiv, decide_eq_false (by omega), decide_eq_false (by omega), Bool.false_and]
  · obtain ⟨n, rfl⟩ := Nat.exists_eq_add_of_le hge
    have hdiv : x * 2 ^ k / 2 ^ (k + n) = x / 2 ^ n := by
      rw [pow_add, ← Int.ediv_ediv_of_nonneg (by positivity), Int.mul_ediv_cancel _ (by positivity)]
    rw [hdiv, decide_eq_true (Nat.le_add_right k n), Bool.true_and, Nat.add_sub_cancel_left]

theorem testBit_ediv_two_pow (x : Int) (k j : Nat) :
    (x / 2 ^ k).testBit j = x.testBit (k + j) := by
  rw [testBit_eq_decide, testBit_eq_decide, pow_add, Int.ediv_ediv_of_nonneg (by positivity)]

end Kanagawa.Lib.Bits
