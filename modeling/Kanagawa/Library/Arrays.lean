/-
  Kanagawa.Library.Arrays

  Functions on arrays of `data/array.k` and `data/bits.k`: the reducer tree and
  what is built on it, on the list of the elements; rotations and masks, on the
  function from an index to the element.
-/
import Mathlib

namespace Kanagawa.Library

variable {α : Type*}

/-! ## The reducer tree -/

/-- One level of the tree: adjacent elements are combined, and an odd one is carried. -/
def reduceLevel (f : α → α → α) : List α → List α
  | x :: y :: xs => f x y :: reduceLevel f xs
  | xs => xs

/-- As many levels as it takes to have one element left. -/
def reduceLevels (f : α → α → α) : Nat → List α → List α
  | 0, xs => xs
  | levels + 1, xs => reduceLevels f levels (reduceLevel f xs)

/-- `reduce`; there is no result for an array without elements, which the language does not have. -/
def reduce (f : α → α → α) (xs : List α) : Option α := (reduceLevels f xs.length xs).head?

theorem length_reduceLevel (f : α → α → α) (xs : List α) :
    (reduceLevel f xs).length = (xs.length + 1) / 2 := by
  induction xs using reduceLevel.induct with
  | case1 x y xs ih =>
    simp only [reduceLevel, List.length_cons, ih]
    omega
  | case2 xs h =>
    match xs, h with
    | [], _ => simp [reduceLevel]
    | [x], _ => simp [reduceLevel]
    | x :: y :: xs, h => exact absurd rfl (h x y xs)

theorem length_reduceLevels (f : α → α → α) {levels : Nat} {xs : List α}
    (hlength : xs.length ≤ levels) (hpos : 0 < xs.length) :
    (reduceLevels f levels xs).length = 1 := by
  induction levels generalizing xs with
  | zero => omega
  | succ levels ih =>
    rcases Nat.lt_or_ge xs.length 2 with hlt | hge
    · -- One element stays as it is on every level.
      obtain ⟨x, rfl⟩ := List.length_eq_one_iff.mp (show xs.length = 1 by omega)
      cases levels with
      | zero => rfl
      | succ levels => exact ih (by simp [reduceLevel]) (by simp [reduceLevel])
    · refine ih ?_ ?_
      · rw [length_reduceLevel]
        omega
      · rw [length_reduceLevel]
        omega

/-- A reducer that returns one of its arguments returns one of the elements. -/
theorem mem_of_mem_reduceLevel {f : α → α → α} (hf : ∀ x y, f x y = x ∨ f x y = y) {xs : List α}
    {z : α} (hz : z ∈ reduceLevel f xs) : z ∈ xs := by
  induction xs using reduceLevel.induct with
  | case1 x y xs ih =>
    simp only [reduceLevel, List.mem_cons] at hz ⊢
    rcases hz with rfl | hz
    · rcases hf x y with h | h
      · exact .inl h
      · exact .inr (.inl h)
    · exact .inr (.inr (ih hz))
  | case2 xs h =>
    match xs, h with
    | [], _ => exact hz
    | [x], _ => exact hz
    | x :: y :: xs, h => exact absurd rfl (h x y xs)

theorem exists_reduce {f : α → α → α} (hf : ∀ x y, f x y = x ∨ f x y = y) {xs : List α}
    (hpos : 0 < xs.length) : ∃ z ∈ xs, reduce f xs = some z := by
  obtain ⟨z, hz⟩ := List.length_eq_one_iff.mp (length_reduceLevels f (Nat.le_refl _) hpos)
  refine ⟨z, ?_, by rw [reduce, hz, List.head?_cons]⟩
  have hmem : ∀ levels (ys : List α), z ∈ reduceLevels f levels ys → z ∈ ys := by
    intro levels
    induction levels with
    | zero => exact fun ys h => h
    | succ levels ih => exact fun ys h => mem_of_mem_reduceLevel hf (ih _ h)
  exact hmem _ _ (by rw [hz]; exact List.mem_singleton_self z)

/-- An associative reducer folds the elements from the left. -/
theorem reduce_eq_foldl {f : α → α → α} (hf : ∀ x y z, f (f x y) z = f x (f y z)) (x : α)
    (xs : List α) : reduce f (x :: xs) = some (xs.foldl f x) := by
  have hassoc : ∀ (ys : List α) (a b : α), ys.foldl f (f a b) = f a (ys.foldl f b) := by
    intro ys
    induction ys with
    | nil => exact fun a b => rfl
    | cons y ys ih =>
      intro a b
      rw [List.foldl_cons, List.foldl_cons, hf, ih]
  -- The value of a level, folded, is the same on every level.
  let fold : List α → Option α := fun ys => ys.head?.map fun y => ys.tail.foldl f y
  have hlevel : ∀ ys : List α, fold (reduceLevel f ys) = fold ys := by
    intro ys
    induction ys using reduceLevel.induct with
    | case1 a b ys ih =>
      simp only [fold, reduceLevel, List.head?_cons, List.tail_cons, Option.map_some,
        List.foldl_cons, Option.some.injEq] at ih ⊢
      cases hys : ys with
      | nil => rfl
      | cons c cs =>
        rw [hys] at ih
        cases hlevel : reduceLevel f (c :: cs) with
        | nil =>
          have := length_reduceLevel f (c :: cs)
          rw [hlevel, List.length_nil, List.length_cons] at this
          omega
        | cons d ds =>
          rw [hlevel] at ih
          simp only [List.head?_cons, List.tail_cons, Option.map_some, Option.some.injEq] at ih
          rw [List.foldl_cons, List.foldl_cons, hassoc, hassoc, ih]
    | case2 ys h =>
      match ys, h with
      | [], _ => rfl
      | [y], _ => rfl
      | y :: y' :: ys, h => exact absurd rfl (h y y' ys)
  have hlevels : ∀ levels (ys : List α), fold (reduceLevels f levels ys) = fold ys := by
    intro levels
    induction levels with
    | zero => exact fun ys => rfl
    | succ levels ih => exact fun ys => (ih _).trans (hlevel ys)
  obtain ⟨z, hz⟩ := List.length_eq_one_iff.mp
    (length_reduceLevels f (Nat.le_refl (x :: xs).length) (Nat.succ_pos xs.length))
  have hfold := hlevels (x :: xs).length (x :: xs)
  rw [hz] at hfold
  simp only [fold, List.head?_cons, List.tail_cons, List.foldl_nil, Option.map_some] at hfold
  rw [reduce, hz, List.head?_cons]
  exact hfold

/-! ## The last valid element -/

/-- `last_valid` on elements that are valid when they are present. -/
def lastValid (xs : List (Option α)) : Option α :=
  (reduce (fun a b => if b.isSome then b else a) xs).join

theorem lastValid_assoc (a b c : Option α) :
    (if c.isSome then c else if b.isSome then b else a) =
      if (if c.isSome then c else b).isSome then (if c.isSome then c else b) else a := by
  cases b <;> cases c <;> simp

theorem lastValid_append_some (xs : List (Option α)) (x : α) :
    lastValid (xs ++ [some x]) = some x := by
  cases xs with
  | nil => rfl
  | cons y ys =>
    rw [lastValid, List.cons_append, reduce_eq_foldl lastValid_assoc, List.foldl_append]
    rfl

theorem lastValid_append_none (xs : List (Option α)) :
    lastValid (xs ++ [none]) = lastValid xs := by
  cases xs with
  | nil => rfl
  | cons y ys =>
    rw [lastValid, lastValid, List.cons_append, reduce_eq_foldl lastValid_assoc,
      reduce_eq_foldl lastValid_assoc, List.foldl_append]
    rfl

/-- `highest_one` of an array of bits. -/
def highestOne (bits : List Bool) : Option Nat :=
  lastValid (bits.mapIdx fun i bit => if bit then some i else none)

theorem highestOne_append (bits : List Bool) (bit : Bool) :
    highestOne (bits ++ [bit]) = if bit then some bits.length else highestOne bits := by
  rw [highestOne, List.mapIdx_append]
  cases bit with
  | true =>
    have hlast : [true].mapIdx (fun i bit => if bit then some (i + bits.length) else none) =
        [some bits.length] := by simp
    rw [hlast]
    exact lastValid_append_some _ _
  | false => exact lastValid_append_none _

/-- The result is the place of a bit that is set. -/
theorem getElem?_of_highestOne {bits : List Bool} {i : Nat} (h : highestOne bits = some i) :
    bits[i]? = some true := by
  induction bits using List.reverseRecOn with
  | nil => exact absurd h (by simp [highestOne, lastValid, reduce, reduceLevels])
  | append_singleton bits bit ih =>
    rw [highestOne_append] at h
    cases bit with
    | true =>
      simp only [if_true, Option.some.injEq] at h
      subst h
      simp
    | false =>
      simp only [if_false, Bool.false_eq_true] at h
      have hi := ih h
      rw [List.getElem?_append_left (List.getElem?_eq_some_iff.mp hi).1]
      exact hi

theorem highestOne_eq_none_iff {bits : List Bool} : highestOne bits = none ↔ true ∉ bits := by
  induction bits using List.reverseRecOn with
  | nil => simp [highestOne, lastValid, reduce, reduceLevels]
  | append_singleton bits bit ih =>
    rw [highestOne_append]
    cases bit with
    | true => simp
    | false => simpa using ih

/-! ## Rotations -/

/-- The number of rounds of `rotate_array`, each of which uses two bits of the amount. -/
def rotateRounds (width : Nat) : Nat := (width + 1) / 2

/-- The shift of a round: the two bits of the amount at their place. -/
def rotateShift (amount round : Nat) : Nat := (amount / 4 ^ round % 4) * 4 ^ round

/-- `rotate_array` to the right of an array with `n` elements, by an amount of `width` bits. -/
def rotateArrayRight (n width : Nat) (data : Nat → α) (amount : Nat) : Nat → α :=
  if 1 < n then
    (List.range (rotateRounds width)).foldl
      (fun data round k => data ((k + rotateShift amount round) % n)) data
  else data

/-- `rotate_array` to the left: the shift is taken from a multiple of the size above it. -/
def rotateArrayLeft (n width : Nat) (data : Nat → α) (amount : Nat) : Nat → α :=
  if 1 < n then
    (List.range (rotateRounds width)).foldl
      (fun data round k =>
        let shift := rotateShift amount round
        let bias := (shift + n) / n * n
        data ((k + (bias - shift) % n) % n)) data
  else data

/-- The shifts of the first rounds add up to the low bits of the amount. -/
theorem mod_add_rotateShift (amount round : Nat) :
    amount % 4 ^ round + rotateShift amount round = amount % 4 ^ (round + 1) := by
  rw [rotateShift, Nat.pow_succ, Nat.mod_mul, Nat.mul_comm (4 ^ round)]

/-- The rounds use all bits of the amount. -/
theorem lt_four_pow_rotateRounds {width amount : Nat} (hamount : amount < 2 ^ width) :
    amount < 4 ^ rotateRounds width := by
  refine Nat.lt_of_lt_of_le hamount ?_
  rw [show 4 = 2 ^ 2 from rfl, ← Nat.pow_mul]
  exact Nat.pow_le_pow_right (by omega) (by rw [rotateRounds]; omega)

theorem rotateArrayRight_apply {n width amount k : Nat} (hk : k < n) (hamount : amount < 2 ^ width)
    (data : Nat → α) : rotateArrayRight n width data amount k = data ((k + amount) % n) := by
  -- After some rounds the array is rotated by so many low bits.
  have hrounds : ∀ rounds k, k < n → (List.range rounds).foldl
      (fun data round k => data ((k + rotateShift amount round) % n)) data k =
      data ((k + amount % 4 ^ rounds) % n) := by
    intro rounds
    induction rounds with
    | zero => intro k hk; simp [Nat.mod_one, Nat.mod_eq_of_lt hk]
    | succ rounds ih =>
      intro k hk
      rw [List.range_succ, List.foldl_append, List.foldl_cons, List.foldl_nil,
        ih _ (Nat.mod_lt _ (by omega)), Nat.mod_add_mod, Nat.add_assoc,
        Nat.add_comm (rotateShift amount rounds), mod_add_rotateShift]
  have hlt := lt_four_pow_rotateRounds hamount
  unfold rotateArrayRight
  split
  · rw [hrounds _ k hk, Nat.mod_eq_of_lt hlt]
  · have hn : n = 1 := by omega
    subst hn
    rw [Nat.mod_one, Nat.lt_one_iff.mp hk]

theorem rotateArrayLeft_apply {n width amount k : Nat} (hk : k < n) (hamount : amount < 2 ^ width)
    (data : Nat → α) : rotateArrayLeft n width data amount ((k + amount) % n) = data k := by
  have hpos : 0 < n := by omega
  have hback : ∀ shift x, ((x + shift) % n + ((shift + n) / n * n - shift) % n) % n = x % n := by
    intro shift x
    have hle : shift ≤ (shift + n) / n * n := by
      have hdiv := Nat.div_add_mod (shift + n) n
      have hmod := Nat.mod_lt (shift + n) hpos
      rw [Nat.mul_comm] at hdiv
      omega
    rw [← Nat.add_mod, Nat.add_assoc, Nat.add_sub_cancel' hle, Nat.add_mul_mod_self_right]
  have hrounds : ∀ rounds x, (List.range rounds).foldl
      (fun data round k =>
        data ((k + ((rotateShift amount round + n) / n * n - rotateShift amount round) % n) % n))
      data ((x + amount % 4 ^ rounds) % n) = data (x % n) := by
    intro rounds
    induction rounds with
    | zero => intro x; simp [Nat.mod_one]
    | succ rounds ih =>
      intro x
      rw [List.range_succ, List.foldl_append, List.foldl_cons, List.foldl_nil,
        ← mod_add_rotateShift, ← Nat.add_assoc, hback, ih]
  have hlt := lt_four_pow_rotateRounds hamount
  unfold rotateArrayLeft
  split
  · have hrotate := hrounds (rotateRounds width) k
    rw [Nat.mod_eq_of_lt hlt, Nat.mod_eq_of_lt hk] at hrotate
    exact hrotate
  · have hn : n = 1 := by omega
    subst hn
    rw [Nat.mod_one, Nat.lt_one_iff.mp hk]

/-! ## Masks -/

/-- `mask_greater_equal` -/
def maskGreaterEqual (n arg : Nat) : Nat → Bool := fun i => ((2 ^ n - 1) <<< arg).testBit i

/-- `mask_less_than` -/
def maskLessThan (n arg : Nat) : Nat → Bool := fun i => !maskGreaterEqual n arg i

theorem maskLessThan_apply {n arg i : Nat} (hi : i < n) :
    maskLessThan n arg i = decide (i < arg) := by
  rw [maskLessThan, maskGreaterEqual, Nat.testBit_shiftLeft, Nat.testBit_two_pow_sub_one]
  by_cases h : i < arg
  · simp [h]
  · have hsub : i - arg < n := by omega
    simp [h, hsub, Nat.le_of_not_lt h]

end Kanagawa.Library
