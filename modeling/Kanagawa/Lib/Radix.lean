/-
  Kanagawa.Lib.Radix

  Integers written in words of a fixed width.

  The words of a number in radix `2 ^ m`, least significant first, stand for the sum
  of the words with their weights.  A word may be any integer, so that the last one
  can carry a sign.  The product of two such numbers is the sum over all pairs of
  words, row by row.
-/
import Mathlib

namespace Kanagawa.Lib.Radix

/-- The number with the given words. -/
def ofWords (m : Nat) : List Int → Int
  | [] => 0
  | word :: words => word + 2 ^ m * ofWords m words

@[simp] theorem ofWords_nil (m : Nat) : ofWords m [] = 0 := rfl

@[simp] theorem ofWords_cons (m : Nat) (word : Int) (words : List Int) :
    ofWords m (word :: words) = word + 2 ^ m * ofWords m words := rfl

/-- The products of one word, number `i`, with words from number `j` on. -/
def rowProducts (m i : Nat) (x : Int) : Nat → List Int → List Int
  | _, [] => []
  | j, y :: ys => x * y * 2 ^ ((i + j) * m) :: rowProducts m i x (j + 1) ys

/-- The products of all pairs of words, the left ones from number `i` on. -/
def allProducts (m : Nat) (ys : List Int) : Nat → List Int → List Int
  | _, [] => []
  | i, x :: xs => rowProducts m i x 0 ys ++ allProducts m ys (i + 1) xs

theorem sum_rowProducts (m i : Nat) (x : Int) (ys : List Int) (j : Nat) :
    (rowProducts m i x j ys).sum = x * 2 ^ ((i + j) * m) * ofWords m ys := by
  induction ys generalizing j with
  | nil => simp [rowProducts]
  | cons y ys ih =>
      have hweight : (i + (j + 1)) * m = (i + j) * m + m := by ring
      rw [rowProducts, List.sum_cons, ih, ofWords_cons, hweight, pow_add]
      ring

/-- The sum over all pairs of words is the product. -/
theorem sum_allProducts (m : Nat) (ys xs : List Int) (i : Nat) :
    (allProducts m ys i xs).sum = 2 ^ (i * m) * (ofWords m xs * ofWords m ys) := by
  induction xs generalizing i with
  | nil => simp [allProducts]
  | cons x xs ih =>
      have hweight : (i + 1) * m = i * m + m := by ring
      rw [allProducts, List.sum_append, sum_rowProducts, ih, ofWords_cons, hweight, pow_add,
        Nat.add_zero]
      ring

end Kanagawa.Lib.Radix
