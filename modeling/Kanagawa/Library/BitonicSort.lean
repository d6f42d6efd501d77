/-
  Kanagawa.Library.BitonicSort

  The bitonic sorting network (`data/array.k`).

  The second half is sorted with the negated comparison.  Of a strict order the
  negation is not strict, but both tell for every two elements which one may stand
  first, and that is what the comparators of the network rest on: for every
  threshold they move the elements above it to the higher indices.

  An array of one element has no comparator: it fails its assertion.
-/
import Kanagawa.Arith.Literal
import Kanagawa.Lib.BitonicLists
import Kanagawa.Lib.Except

namespace Kanagawa.Library

open Lib.BitonicLists Lib.Except

variable {α : Type}

/-! ## The network -/

/-- `bitonic_comparator`, of an array with `n` elements. -/
def bitonicComparator (n : Nat) (x : List α) (cmp : α → α → Bool) : Except Failure (List α) := do
  assert (n % 2 = 0)
  let half := n / 2
  return List.zipWith (fun a b => if cmp a b then a else b) (x.take half) (x.drop half) ++
    List.zipWith (fun a b => if cmp a b then b else a) (x.take half) (x.drop half)

/-- `bitonic_merge`. -/
def bitonicMerge (n : Nat) (x : List α) (cmp : α → α → Bool) : Except Failure (List α) := do
  -- Must be power of 2
  assert (n &&& (n - 1) = 0)
  let x ← bitonicComparator n x cmp
  -- Recursively apply smaller bitonic comparator networks
  if n > 2 then
    let lower ← bitonicMerge (n / 2) (x.take (n / 2)) cmp
    let upper ← bitonicMerge (n / 2) (x.drop (n / 2)) cmp
    return lower ++ upper
  else return x
termination_by n
decreasing_by all_goals omega

/-- `bitonic_sort`; its static assertion is met by every instance of the template. -/
def bitonicSort (n : Nat) (x : List α) (cmp : α → α → Bool) : Except Failure (List α) := do
  assert (n &&& (n - 1) = 0)
  if n > 2 then
    let notCmp := fun x y => !cmp x y
    let lower ← bitonicSort (n / 2) (x.take (n / 2)) cmp
    let upper ← bitonicSort (n / 2) (x.drop (n / 2)) notCmp
    bitonicMerge n (lower ++ upper) cmp
  else bitonicMerge n x cmp
termination_by n
decreasing_by all_goals omega

/-! ## Comparisons -/

/-- A strict weak order. -/
structure StrictWeak (cmp : α → α → Bool) : Prop where
  irrefl : ∀ a, cmp a a = false
  trans : ∀ a b c, cmp a b = true → cmp b c = true → cmp a c = true
  incomparable_trans : ∀ a b c, cmp a b = false → cmp b a = false → cmp b c = false →
    cmp c b = false → cmp a c = false ∧ cmp c a = false

/-- A total preorder. -/
structure TotalPreorder (cmp : α → α → Bool) : Prop where
  total : ∀ a b, cmp a b = true ∨ cmp b a = true
  trans : ∀ a b c, cmp a b = true → cmp b c = true → cmp a c = true

/-- An element is strictly before another one. -/
def strictlyBefore (cmp : α → α → Bool) (a b : α) : Bool := cmp a b && !cmp b a

/-- The comparison tells which of two elements may stand first. -/
structure Compares (cmp : α → α → Bool) (le : α → α → Prop) : Prop where
  first : ∀ a b, cmp a b = true → le a b
  second : ∀ a b, cmp a b = false → le b a

/-- The negated comparison goes by the opposite order. -/
theorem Compares.not {cmp : α → α → Bool} {le : α → α → Prop} (h : Compares cmp le) :
    Compares (fun a b => !cmp a b) fun a b => le b a :=
  ⟨fun a b hab => h.second a b (by simpa using hab), fun a b hab => h.first a b (by simpa using hab)⟩

theorem StrictWeak.compares {cmp : α → α → Bool} (h : StrictWeak cmp) :
    Compares cmp fun a b => cmp b a = false := by
  refine ⟨fun a b hab => ?_, fun a b hab => hab⟩
  by_contra hba
  have hloop := h.trans a b a hab (by simpa using hba)
  rw [h.irrefl] at hloop
  cases hloop

/-- What is not strictly before does not become so in two steps. -/
theorem StrictWeak.not_trans {cmp : α → α → Bool} (h : StrictWeak cmp) {a b c : α}
    (hab : cmp b a = false) (hbc : cmp c b = false) : cmp c a = false := by
  by_contra hca
  have hca : cmp c a = true := by simpa using hca
  have hab' : cmp a b = false := by
    by_contra hlt
    rw [h.trans c a b hca (by simpa using hlt)] at hbc
    cases hbc
  have hbc' : cmp b c = false := by
    by_contra hlt
    rw [h.trans b c a (by simpa using hlt) hca] at hab
    cases hab
  rw [(h.incomparable_trans a b c hab' hab hbc' hbc).2] at hca
  cases hca

/-- The order behind a comparison: what is sorted by it has no element strictly before an earlier
    one. -/
theorem exists_compares {cmp : α → α → Bool} (h : StrictWeak cmp ∨ TotalPreorder cmp) :
    ∃ le : α → α → Prop, Compares cmp le ∧ (∀ a, le a a) ∧
      (∀ a b c, le a b → le b c → le a c) ∧ ∀ a b, le a b → strictlyBefore cmp b a = false := by
  rcases h with h | h
  · refine ⟨fun a b => cmp b a = false, h.compares, h.irrefl, fun a b c => h.not_trans, ?_⟩
    intro a b hab
    rw [strictlyBefore, hab, Bool.false_and]
  · have hrefl : ∀ a, cmp a a = true := fun a => (h.total a a).elim id id
    refine ⟨fun a b => cmp a b = true, ⟨fun a b hab => hab, fun a b hab => ?_⟩, hrefl, h.trans, ?_⟩
    · have hor := h.total a b
      rw [hab] at hor
      exact hor.resolve_left Bool.false_ne_true
    · intro a b hab
      rw [strictlyBefore, hab, Bool.not_true, Bool.and_false]

/-! ## The network sorts -/

/-- Elements above a threshold come last. -/
def Rises (P : α → Prop) (x : List α) : Prop := x.Pairwise fun a b => P a → P b

/-- A threshold of an order. -/
def UpClosed (le : α → α → Prop) (P : α → Prop) : Prop := ∀ a b, le a b → P a → P b

section Network

variable {cmp : α → α → Bool} {le : α → α → Prop}

theorem assert_pow (m : Nat) : assert (2 ^ m &&& (2 ^ m - 1) = 0) = .ok () :=
  assert_of_true (by rw [Nat.and_two_pow_sub_one_eq_mod, Nat.mod_self]; rfl)

theorem bitonicComparator_eq (m : Nat) (x : List α) (cmp : α → α → Bool) :
    bitonicComparator (2 ^ (m + 1)) x cmp = .ok
      (List.zipWith (fun a b => if cmp a b then a else b) (x.take (2 ^ m)) (x.drop (2 ^ m)) ++
        List.zipWith (fun a b => if cmp a b then b else a) (x.take (2 ^ m)) (x.drop (2 ^ m))) := by
  have hassert : assert (decide (2 ^ (m + 1) % 2 = 0)) = .ok () :=
    assert_of_true (by rw [Nat.pow_succ, Nat.mul_mod_left]; rfl)
  have hhalf : 2 ^ (m + 1) / 2 = 2 ^ m := by rw [Nat.pow_succ, Nat.mul_div_cancel _ (by decide)]
  rw [bitonicComparator, hassert, hhalf]
  rfl

/-- The lower element of a pair is above a threshold if both are. -/
theorem low_iff (hcmp : Compares cmp le) {P : α → Prop} (hP : UpClosed le P) (a b : α) :
    P (if cmp a b then a else b) ↔ P a ∧ P b := by
  cases hab : cmp a b with
  | true => exact ⟨fun h => ⟨h, hP a b (hcmp.first a b hab) h⟩, And.left⟩
  | false => exact ⟨fun h => ⟨hP b a (hcmp.second a b hab) h, h⟩, And.right⟩

theorem high_iff (hcmp : Compares cmp le) {P : α → Prop} (hP : UpClosed le P) (a b : α) :
    P (if cmp a b then b else a) ↔ P a ∨ P b := by
  cases hab : cmp a b with
  | true => exact ⟨.inr, fun h => h.elim (hP a b (hcmp.first a b hab)) id⟩
  | false => exact ⟨.inl, fun h => h.elim id (hP b a (hcmp.second a b hab))⟩

/-- Sorted halves, of which the lower one is above a threshold only where all of the upper one
    is. -/
theorem rises_append {P : α → Prop} {lower upper lo hi : List α} (hlo : lower.Perm lo)
    (hhi : upper.Perm hi) (hrise : Rises P lower) (hrise' : Rises P upper)
    (hle : ∀ a ∈ lo, ∀ b ∈ hi, P a → P b) : Rises P (lower ++ upper) :=
  List.pairwise_append.mpr ⟨hrise, hrise', fun a ha b hb =>
    hle a (hlo.mem_iff.mp ha) b (hhi.mem_iff.mp hb)⟩

theorem length_halves {m : Nat} {x : List α} (hx : x.length = 2 ^ (m + 1)) :
    (x.take (2 ^ m)).length = 2 ^ m ∧ (x.drop (2 ^ m)).length = 2 ^ m := by
  rw [List.length_take, List.length_drop, hx, Nat.pow_succ]
  omega

theorem half_pow (m : Nat) : 2 ^ (m + 1) / 2 = 2 ^ m := by
  rw [Nat.pow_succ, Nat.mul_div_cancel _ (by decide)]

/-- The merging network sorts what is bitonic for every threshold. -/
theorem bitonicMerge_spec (hcmp : Compares cmp le) (m : Nat) {x : List α}
    (hx : x.length = 2 ^ (m + 1)) :
    ∃ y, bitonicMerge (2 ^ (m + 1)) x cmp = .ok y ∧ y.Perm x ∧
      ∀ P, UpClosed le P → Bitonic P x → Rises P y := by
  induction m generalizing x with
  | zero =>
      obtain ⟨a, b, rfl⟩ := List.length_eq_two.mp hx
      refine ⟨[if cmp a b then a else b, if cmp a b then b else a], ?_, ?_, fun P hP _ => ?_⟩
      · rw [bitonicMerge, assert_pow, bitonicComparator_eq]
        rfl
      · cases cmp a b
        · exact .swap a b []
        · exact .refl _
      · refine List.pairwise_pair.mpr ?_
        rw [low_iff hcmp hP, high_iff hcmp hP]
        exact fun h => .inl h.1
  | succ m ih =>
      obtain ⟨hlo, hhi⟩ := length_halves hx
      generalize hlo' : x.take (2 ^ (m + 1)) = lo at hlo
      generalize hhi' : x.drop (2 ^ (m + 1)) = hi at hhi
      have hsplit : lo ++ hi = x := by rw [← hlo', ← hhi', List.take_append_drop]
      have hlow : (List.zipWith (fun a b => if cmp a b then a else b) lo hi).length
          = 2 ^ (m + 1) := by
        rw [List.length_zipWith, hlo, hhi, Nat.min_self]
      have hhigh : (List.zipWith (fun a b => if cmp a b then b else a) lo hi).length
          = 2 ^ (m + 1) := by
        rw [List.length_zipWith, hlo, hhi, Nat.min_self]
      obtain ⟨lower, hlower, hpermLower, hriseLower⟩ := ih hlow
      obtain ⟨upper, hupper, hpermUpper, hriseUpper⟩ := ih hhigh
      have hperm := zipWith_perm (f := fun a b => if cmp a b then a else b)
        (g := fun a b => if cmp a b then b else a)
        (fun a b => by cases cmp a b <;> simp) (hlo.trans hhi.symm)
      have hgt : 2 ^ (m + 1 + 1) > 2 := by
        have := Nat.two_pow_pos m
        rw [Nat.pow_succ, Nat.pow_succ]
        omega
      refine ⟨lower ++ upper, ?_, ?_, fun P hP hbitonic => ?_⟩
      · rw [bitonicMerge, assert_pow, bitonicComparator_eq, hlo', hhi', half_pow]
        simp only [ok_bind, if_pos hgt]
        rw [List.take_left' hlow, List.drop_left' hlow, hlower, hupper]
        rfl
      · rw [← hsplit]
        exact (hpermLower.append hpermUpper).trans hperm
      · -- The comparators leave two bitonic halves
        rw [← hsplit] at hbitonic
        obtain ⟨hb, hb', hle⟩ := hbitonic.clean hlo hhi (Nat.two_pow_pos _)
          (low_iff hcmp hP) (high_iff hcmp hP)
        exact rises_append hpermLower hpermUpper (hriseLower P hP hb) (hriseUpper P hP hb') hle

/-- The network sorts for every threshold of the order. -/
theorem bitonicSort_spec (m : Nat) {cmp : α → α → Bool} {le : α → α → Prop}
    (hcmp : Compares cmp le) {x : List α} (hx : x.length = 2 ^ (m + 1)) :
    ∃ y, bitonicSort (2 ^ (m + 1)) x cmp = .ok y ∧ y.Perm x ∧
      ∀ P, UpClosed le P → Rises P y := by
  induction m generalizing cmp le x with
  | zero =>
      obtain ⟨y, hmerge, hperm, hrise⟩ := bitonicMerge_spec hcmp 0 hx
      refine ⟨y, ?_, hperm, fun P hP => hrise P hP ?_⟩
      · rw [bitonicSort, assert_pow]
        simp only [ok_bind, Nat.zero_add, Nat.pow_one, gt_iff_lt, Nat.lt_irrefl, if_false]
        exact hmerge
      · obtain ⟨a, b, rfl⟩ := List.length_eq_two.mp hx
        show Bitonic P ([a] ++ [b])
        exact bitonic_append rfl rfl (List.pairwise_singleton _ _)
          (List.pairwise_singleton _ _)
  | succ m ih =>
      obtain ⟨hlo, hhi⟩ := length_halves hx
      obtain ⟨lower, hlower, hpermLower, hriseLower⟩ := ih hcmp hlo
      obtain ⟨upper, hupper, hpermUpper, hriseUpper⟩ := ih hcmp.not hhi
      have hlength : (lower ++ upper).length = 2 ^ (m + 1 + 1) := by
        rw [List.length_append, hpermLower.length_eq, hpermUpper.length_eq, hlo, hhi,
          Nat.pow_succ 2 (m + 1), Nat.mul_two]
      obtain ⟨y, hmerge, hperm, hrise⟩ := bitonicMerge_spec hcmp (m + 1) hlength
      have hgt : 2 ^ (m + 1 + 1) > 2 := by
        have := Nat.two_pow_pos m
        rw [Nat.pow_succ, Nat.pow_succ]
        omega
      refine ⟨y, ?_, ?_, fun P hP => hrise P hP ?_⟩
      · rw [bitonicSort, assert_pow, half_pow]
        simp only [ok_bind, if_pos hgt, hlower, hupper]
        exact hmerge
      · refine hperm.trans ((hpermLower.append hpermUpper).trans ?_)
        rw [List.take_append_drop]
      · -- Below a threshold the second half is sorted by the opposite order
        have hfall : upper.Pairwise fun a b => P b → P a := by
          have hnot := hriseUpper (fun a => ¬P a) fun a b hab hna hb => hna (hP b a hab hb)
          exact hnot.imp fun hab hb => by_contra fun ha => hab ha hb
        exact bitonic_append (hpermLower.length_eq.trans hlo) (hpermUpper.length_eq.trans hhi)
          (hriseLower P hP) hfall

end Network

/-- The comparator of an array of one element fails. -/
theorem bitonicSort_one (x : List α) (cmp : α → α → Bool) :
    bitonicSort 1 x cmp = .error .assertion := by
  rw [bitonicSort, bitonicMerge]
  rfl

/-- The network sorts exactly the arrays of two or more elements; on one element the comparator
    fails its assertion. -/
theorem bitonicSort_sorts_iff {cmp : α → α → Bool} (hcmp : StrictWeak cmp ∨ TotalPreorder cmp)
    {m : Nat} {x : List α} (hx : x.length = 2 ^ m) :
    (∃ y, bitonicSort x.length x cmp = .ok y ∧ y.Perm x ∧
      y.Pairwise fun a b => strictlyBefore cmp b a = false) ↔ x.length ≠ 1 := by
  constructor
  · rintro ⟨y, hsort, -⟩ hone
    rw [hone, bitonicSort_one] at hsort
    cases hsort
  · intro hne
    obtain ⟨k, rfl⟩ : ∃ k, m = k + 1 := by
      cases m with
      | zero => exact absurd hx hne
      | succ k => exact ⟨k, rfl⟩
    obtain ⟨le, hcompares, hrefl, htrans, hbefore⟩ := exists_compares hcmp
    obtain ⟨y, hsort, hperm, hrise⟩ := bitonicSort_spec k hcompares hx
    refine ⟨y, by rw [hx]; exact hsort, hperm, List.pairwise_iff_getElem.mpr ?_⟩
    intro i j hi hj hij
    -- The threshold of the earlier element is met by the later one
    have hthreshold := List.pairwise_iff_getElem.mp
      (hrise (le y[i]) fun a b hab ha => htrans y[i] a b ha hab) i j hi hj hij
    exact hbefore _ _ (hthreshold (hrefl _))

theorem lessThan_strictWeak : StrictWeak fun a b : Nat => decide (a < b) :=
  ⟨by simp, by simpa using fun a b c => Nat.lt_trans, fun a b c => by simpa using by omega⟩

/-- Four numbers, two of them equal. -/
theorem bitonicSort_sorts_iff_four :
    ∃ y, bitonicSort 4 [4, 2, 2, 1] (fun a b : Nat => decide (a < b)) = .ok y ∧
      y.Perm [4, 2, 2, 1] ∧
      y.Pairwise fun a b => strictlyBefore (fun a b : Nat => decide (a < b)) b a = false :=
  (bitonicSort_sorts_iff (.inl lessThan_strictWeak) (m := 2) (x := [4, 2, 2, 1]) rfl).mpr
    (by decide)

/-- One element. -/
theorem bitonicSort_one_fails :
    bitonicSort 1 [7] (fun a b : Nat => decide (a < b)) = .error .assertion :=
  bitonicSort_one _ _

end Kanagawa.Library
