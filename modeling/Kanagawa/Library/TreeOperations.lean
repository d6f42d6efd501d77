/-
  Kanagawa.Library.TreeOperations

  The tree-shaped array operations (`data/array.k`) against the sequential ones.

  The scan doubles the number of elements behind every result, in two buffers
  that take turns.  A result is combined with the one below it as the second
  argument, so that the elements are combined from the last one down.
-/
import Kanagawa.Library.BankSchedule

namespace Kanagawa.Library

variable {α τ : Type*}

/-! ## The scan, with its buffers -/

/-- A round of `inclusive_scan`, from one of the two buffers to the other. -/
def scanBuffers (f : α → α → α) (n : Nat) (results : Nat → Nat → α) (j : Nat) : Nat → Nat → α :=
  let prevIndex := j % 2
  let nextIndex := (j + 1) % 2
  fun buffer i =>
    if buffer = nextIndex ∧ i < n then
      if i < 2 ^ j then results prevIndex i
      else f (results prevIndex i) (results prevIndex (i - 2 ^ j))
    else results buffer i

/-- `inclusive_scan`; the second buffer starts with whatever it holds. -/
def inclusiveScanArray (castTo : τ → α) (n : Nat) (input : Nat → τ) (f : α → α → α)
    (unset : Nat → α) : Nat → α :=
  let results := fun buffer i => if buffer = 0 then castTo (input i) else unset i
  (List.range (Nat.clog 2 n)).foldl (scanBuffers f n) results (Nat.clog 2 n % 2)

/-- The buffer of a round holds the results of all rounds before. -/
theorem scanBuffers_eq (f : α → α → α) (n : Nat) (start : Nat → Nat → α) (rounds : Nat) :
    ∀ i, i < n → (List.range rounds).foldl (scanBuffers f n) start (rounds % 2) i
      = (List.range rounds).foldl (scanRound f) (start 0) i := by
  induction rounds with
  | zero => exact fun i _ => rfl
  | succ rounds ih =>
      intro i hi
      rw [List.range_succ, List.foldl_append, List.foldl_append]
      simp only [List.foldl_cons, List.foldl_nil, scanBuffers, scanRound, hi, and_true, if_true]
      split
      · exact ih i hi
      · rw [ih i hi, ih (i - 2 ^ rounds) (Nat.lt_of_le_of_lt (Nat.sub_le _ _) hi)]

theorem inclusiveScanArray_eq (castTo : τ → α) {n i : Nat} (hi : i < n) (input : Nat → τ)
    (f : α → α → α) (unset : Nat → α) :
    inclusiveScanArray castTo n input f unset i = inclusiveScan n f (fun k => castTo (input k)) i :=
  scanBuffers_eq f n _ _ i hi

/-! ## Folds in both orders -/

/-- The left fold of the elements up to one, in the order of their indices. -/
def foldUp (f : α → α → α) (x : Nat → α) (i : Nat) : α :=
  (List.range i).foldl (fun acc k => f acc (x (k + 1))) (x 0)

/-- The left fold of an element and so many below it, from the last one down. -/
def foldDown (f : α → α → α) (x : Nat → α) (i : Nat) : Nat → α
  | 0 => x i
  | n + 1 => f (foldDown f x i n) (x (i - (n + 1)))

theorem foldUp_succ (f : α → α → α) (x : Nat → α) (i : Nat) :
    foldUp f x (i + 1) = f (foldUp f x i) (x (i + 1)) := by
  rw [foldUp, List.range_succ, List.foldl_append]
  rfl

section Associative

variable {f : α → α → α} (hf : ∀ a b c, f (f a b) c = f a (f b c)) (x : Nat → α)
include hf

/-- Two folds of elements next to each other are one fold. -/
theorem foldDown_append (i m k : Nat) :
    f (foldDown f x i m) (foldDown f x (i - (m + 1)) k) = foldDown f x i (m + 1 + k) := by
  induction k with
  | zero => rfl
  | succ k ih =>
      rw [foldDown, ← hf, ih, Nat.sub_sub]
      rfl

/-- After some rounds every result is the fold of so many elements down from its place. -/
theorem scanRounds_eq (rounds i : Nat) :
    (List.range rounds).foldl (scanRound f) x i
      = foldDown f x i (min (2 ^ rounds) (i + 1) - 1) := by
  induction rounds generalizing i with
  | zero =>
      rw [show min (2 ^ 0) (i + 1) - 1 = 0 by omega]
      rfl
  | succ rounds ih =>
      have hpos := Nat.two_pow_pos rounds
      rw [List.range_succ, List.foldl_append, List.foldl_cons, List.foldl_nil, scanRound,
        Nat.pow_succ]
      split
      · rw [ih i]
        congr 1
        omega
      · have hfirst : min (2 ^ rounds) (i + 1) - 1 + 1 = 2 ^ rounds := by omega
        have hall := foldDown_append hf x i (min (2 ^ rounds) (i + 1) - 1)
          (min (2 ^ rounds) (i - 2 ^ rounds + 1) - 1)
        rw [hfirst] at hall
        rw [ih i, ih (i - 2 ^ rounds), hall]
        congr 1
        omega

theorem inclusiveScan_eq_foldDown {n i : Nat} (hi : i < n) :
    inclusiveScan n f x i = foldDown f x i i := by
  have hall : n ≤ 2 ^ Nat.clog 2 n := Nat.le_pow_clog (by omega) n
  rw [inclusiveScan, scanRounds_eq hf]
  congr 1
  omega

/-- A commutative function does not tell the orders apart. -/
theorem foldDown_eq_foldUp (hcomm : ∀ a b, f a b = f b a) (i : Nat) :
    foldDown f x i i = foldUp f x i := by
  induction i with
  | zero => rfl
  | succ i ih =>
      have hsplit := foldDown_append hf x (i + 1) 0 i
      rw [Nat.zero_add, Nat.add_sub_cancel, ih, Nat.add_comm 1 i] at hsplit
      rw [← hsplit, hcomm, foldUp_succ]
      rfl

theorem reduce_eq_foldUp {n : Nat} (hn : 0 < n) :
    reduce f ((List.range n).map x) = some (foldUp f x (n - 1)) := by
  obtain ⟨m, rfl⟩ := Nat.exists_eq_add_of_lt hn
  rw [Nat.zero_add, List.range_succ_eq_map, List.map_cons, List.map_map, reduce_eq_foldl hf,
    List.foldl_map]
  rfl

end Associative

/-! ## The operations together -/

/-- The elements are where `rotate_array_right` and `rotate_array_left` promise them. -/
def Rotates (n : Nat) (x : Nat → α) : Prop :=
  ∀ m width amount i, m ≤ n → width ≤ Nat.clog 2 n → amount < 2 ^ width → i < m →
    rotateArrayRight n width x amount i = x ((i + amount) % n) ∧
    (amount < n → rotateArrayLeft n width x amount i = x ((i + (n - amount)) % n))

theorem rotates (n : Nat) (x : Nat → α) : Rotates n x := by
  intro m width amount i hm _ hamount hi
  refine ⟨rotateArrayRight_apply (by omega) hamount x, fun hlt => ?_⟩
  have hback := rotateArrayLeft_apply (k := (i + (n - amount)) % n) (Nat.mod_lt _ (by omega))
    hamount x
  rw [Nat.mod_add_mod, Nat.add_assoc, Nat.sub_add_cancel hlt.le, Nat.add_mod_right,
    Nat.mod_eq_of_lt (show i < n by omega)] at hback
  exact hback

/-- `inclusive_scan` combines the elements up to each one in the order of their indices. -/
def ScansInOrder (n : Nat) (f : α → α → α) (x unset : Nat → α) : Prop :=
  ∀ i, i < n → inclusiveScanArray id n x f unset i = foldUp f x i

/-- The operations equal their sequential definitions exactly where the order of the elements
    does not matter to the scan: for all arrays of two or more elements, under a commutative
    function. -/
theorem tree_operations_sequential_iff {f : α → α → α} (hf : ∀ a b c, f (f a b) c = f a (f b c))
    {n : Nat} (hn : 0 < n) (unset : Nat → α) :
    (∀ x : Nat → α,
      ((reduce f ((List.range n).map x) = some (foldUp f x (n - 1)) ∧
        ScansInOrder n f x unset ∧ Rotates n x) ↔
      ∀ i, i < n → foldDown f x i i = foldUp f x i)) ∧
    ((∀ x : Nat → α, reduce f ((List.range n).map x) = some (foldUp f x (n - 1)) ∧
        ScansInOrder n f x unset ∧ Rotates n x) ↔
      n = 1 ∨ ∀ a b, f a b = f b a) := by
  have hscan : ∀ (x : Nat → α) i, i < n →
      inclusiveScanArray id n x f unset i = foldDown f x i i := by
    intro x i hi
    rw [inclusiveScanArray_eq id hi]
    exact inclusiveScan_eq_foldDown hf x hi
  have hone : ∀ x : Nat → α, ((reduce f ((List.range n).map x) = some (foldUp f x (n - 1)) ∧
      ScansInOrder n f x unset ∧ Rotates n x) ↔
      ∀ i, i < n → foldDown f x i i = foldUp f x i) := by
    intro x
    constructor
    · rintro ⟨-, hfolds, -⟩ i hi
      rw [← hscan x i hi, hfolds i hi]
    · intro hfolds
      exact ⟨reduce_eq_foldUp hf x hn, fun i hi => (hscan x i hi).trans (hfolds i hi), rotates n x⟩
  refine ⟨hone, ?_⟩
  simp only [hone]
  constructor
  · intro hfolds
    rcases Nat.lt_or_ge n 2 with hlt | hge
    · exact .inl (by omega)
    · -- The second element of an array with `a` and `b` tells the orders apart
      refine .inr fun a b => ?_
      exact (hfolds (fun k => if k = 0 then a else b) 1 hge).symm
  · rintro (rfl | hcomm) x i hi
    · rw [show i = 0 by omega]
      rfl
    · exact foldDown_eq_foldUp hf x hcomm i

/-- The sum of the first five squares. -/
theorem tree_operations_sequential_iff_add :
    reduce (· + ·) ((List.range 5).map fun i => i * i) = some (foldUp (· + ·) (fun i => i * i) 4) ∧
      ScansInOrder 5 (· + ·) (fun i => i * i) (fun _ => 0) ∧ Rotates 5 (fun i => i * i) :=
  (tree_operations_sequential_iff (f := fun a b : Nat => a + b) Nat.add_assoc (n := 5)
    (by decide) fun _ => 0).2.mpr (.inr Nat.add_comm) fun i => i * i

/-- Concatenation comes out in the wrong order. -/
theorem inclusive_scan_reversed :
    (∀ a b c : List Nat, (a ++ b) ++ c = a ++ (b ++ c)) ∧
    inclusiveScanArray id 2 (fun i => [i]) (fun a b : List Nat => a ++ b) (fun _ => []) 1
      = [1, 0] ∧
    foldUp (fun a b : List Nat => a ++ b) (fun i => [i]) 1 = [0, 1] :=
  ⟨List.append_assoc, by decide, by decide⟩

end Kanagawa.Library
