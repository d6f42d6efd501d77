/-
  Kanagawa.Lib.Carry

  Sums and differences word by word.

  The floor of a sum divided by a power of two is the sum of the floors and a
  carry; of a difference, the difference of the floors less a borrow.  The next
  word and its carry are read off the sum of one word of each operand and the
  carry so far, whatever the widths of the words.
-/
import Mathlib

namespace Kanagawa.Lib.Carry

/-- A sum, or a difference. -/
def combine (sub : Bool) (a b : Int) : Int := if sub then a - b else a + b

/-- `c` is carried (or borrowed) into bit `o` of the sum (or difference). -/
def CarryAt (sub : Bool) (a b : Int) (o : Nat) (c : Int) : Prop :=
  combine sub a b / 2 ^ o = combine sub (a / 2 ^ o) (b / 2 ^ o + c)

/-- The word of `w` bits at `o`, with room for what it carries. -/
def wordResult (sub : Bool) (a b : Int) (o w : Nat) (c : Int) : Int :=
  combine sub (a / 2 ^ o % 2 ^ w) (b / 2 ^ o % 2 ^ w + c)

/-- What a word carries into the next one. -/
def carryOut (sub : Bool) (w : Nat) (result : Int) : Int :=
  if sub then -(result / 2 ^ w) else result / 2 ^ w

variable {sub : Bool} {a b c : Int} {o w : Nat}

theorem carryAt_zero : CarryAt sub a b 0 0 := by
  simp [CarryAt]

theorem ediv_pow_add (x : Int) (o w : Nat) : x / 2 ^ (o + w) = x / 2 ^ o / 2 ^ w := by
  rw [pow_add, Int.ediv_ediv_of_nonneg (by positivity)]

/-- The low bits of an integer, cut at `o`. -/
theorem emod_pow_add (x : Int) (o w : Nat) :
    x % 2 ^ (o + w) = x / 2 ^ o % 2 ^ w * 2 ^ o + x % 2 ^ o := by
  have ho : (0 : Int) < 2 ^ o := by positivity
  have hw : (0 : Int) < 2 ^ w := by positivity
  have hx := Int.emod_add_mul_ediv x (2 ^ o)
  have hy := Int.emod_add_mul_ediv (x / 2 ^ o) (2 ^ w)
  have hlow := Int.emod_nonneg x ho.ne'
  have hlow' := Int.emod_lt_of_pos x ho
  have hhigh := Int.emod_nonneg (x / 2 ^ o) hw.ne'
  have hhigh' := Int.emod_lt_of_pos (x / 2 ^ o) hw
  have hsplit : x = (x / 2 ^ o % 2 ^ w * 2 ^ o + x % 2 ^ o)
      + 2 ^ (o + w) * (x / 2 ^ o / 2 ^ w) := by
    rw [pow_add]
    linear_combination -hx - 2 ^ o * hy
  have hlt : x / 2 ^ o % 2 ^ w * 2 ^ o + x % 2 ^ o < 2 ^ (o + w) := by
    rw [pow_add]
    nlinarith
  conv_lhs => rw [hsplit]
  rw [Int.add_mul_emod_self_left, Int.emod_eq_of_lt (by positivity) hlt]

/-- The two operands above `o`, split into a word and the rest. -/
theorem combine_split (h : CarryAt sub a b o c) :
    combine sub a b / 2 ^ o
      = wordResult sub a b o w c + 2 ^ w * combine sub (a / 2 ^ (o + w)) (b / 2 ^ (o + w)) := by
  have ha := Int.emod_add_mul_ediv (a / 2 ^ o) (2 ^ w)
  have hb := Int.emod_add_mul_ediv (b / 2 ^ o) (2 ^ w)
  rw [ediv_pow_add a, ediv_pow_add b]
  rw [CarryAt] at h
  rw [h]
  cases sub <;> simp only [combine, wordResult, Bool.false_eq_true, if_false, if_true] <;>
    linarith

theorem wordResult_modEq (h : CarryAt sub a b o c) :
    wordResult sub a b o w c ≡ combine sub a b / 2 ^ o [ZMOD 2 ^ w] := by
  rw [combine_split (w := w) h]
  exact Int.modEq_iff_dvd.mpr ⟨combine sub (a / 2 ^ (o + w)) (b / 2 ^ (o + w)), by ring⟩

theorem carryAt_next (h : CarryAt sub a b o c) :
    CarryAt sub a b (o + w) (carryOut sub w (wordResult sub a b o w c)) := by
  have hpow : (2 : Int) ^ w ≠ 0 := by positivity
  rw [CarryAt, ediv_pow_add (combine sub a b), combine_split (w := w) h,
    Int.add_mul_ediv_left _ _ hpow]
  cases sub <;> simp only [combine, carryOut, Bool.false_eq_true, if_false, if_true] <;> ring

theorem carryOut_range (hc : 0 ≤ c ∧ c < 2) :
    0 ≤ carryOut sub w (wordResult sub a b o w c) ∧
      carryOut sub w (wordResult sub a b o w c) < 2 := by
  have hpow : (0 : Int) < 2 ^ w := by positivity
  have ha := Int.emod_nonneg (a / 2 ^ o) hpow.ne'
  have ha' := Int.emod_lt_of_pos (a / 2 ^ o) hpow
  have hb := Int.emod_nonneg (b / 2 ^ o) hpow.ne'
  have hb' := Int.emod_lt_of_pos (b / 2 ^ o) hpow
  cases sub with
  | false =>
      simp only [carryOut, wordResult, combine, Bool.false_eq_true, if_false]
      constructor
      · exact Int.ediv_nonneg (by omega) hpow.le
      · exact Int.ediv_lt_of_lt_mul hpow (by omega)
  | true =>
      simp only [carryOut, wordResult, combine, if_true]
      have hlow : -1 ≤ (a / 2 ^ o % 2 ^ w - (b / 2 ^ o % 2 ^ w + c)) / 2 ^ w :=
        (Int.le_ediv_iff_mul_le hpow).mpr (by omega)
      have hhigh : (a / 2 ^ o % 2 ^ w - (b / 2 ^ o % 2 ^ w + c)) / 2 ^ w < 1 :=
        Int.ediv_lt_of_lt_mul hpow (by omega)
      omega

/-- The bit above a word is what the word carries. -/
theorem bit_eq_carryOut (hc : 0 ≤ c ∧ c < 2) :
    wordResult sub a b o w c / 2 ^ w % 2 = carryOut sub w (wordResult sub a b o w c) := by
  have hrange := @carryOut_range sub a b c o w hc
  cases sub with
  | false =>
      simp only [carryOut, Bool.false_eq_true, if_false] at hrange ⊢
      omega
  | true =>
      simp only [carryOut, if_true] at hrange ⊢
      omega

/-- Appending a bit to both operands, one and the carry for a sum, zero and the borrow for a
    difference, adds the carry to the word one bit up. -/
theorem appended_carry (x y : Int) (hc : 0 ≤ c ∧ c < 2) :
    combine sub (2 * x + if sub then 0 else 1) (2 * y + c) / 2 = combine sub x (y + c) := by
  cases sub <;> simp only [combine, Bool.false_eq_true, if_false, if_true] <;> omega

end Kanagawa.Lib.Carry
