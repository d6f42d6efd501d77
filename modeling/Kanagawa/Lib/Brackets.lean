/-
  Kanagawa.Lib.Brackets

  Nested brackets in a list.

  `depth` counts the brackets open behind a list; a list is balanced when it
  closes all it opens and nothing else.  A list that returns below the depth it
  starts at splits at the closing bracket that takes it there, and a balanced
  prefix in front of a closing bracket is unique.
-/
import Mathlib

namespace Kanagawa.Lib.Brackets

variable {α : Type*} [DecidableEq α] {l r : α}

/-- The brackets open behind `xs` with `d` open before it; `none` from a closing
    bracket on that has no opening one. -/
def depth (l r : α) : Nat → List α → Option Nat
  | d, [] => some d
  | d, x :: xs =>
    if x = r then
      match d with
      | 0 => none
      | d + 1 => depth l r d xs
    else if x = l then depth l r (d + 1) xs
    else depth l r d xs

/-- All brackets of the list are closed in it, in the order they nest. -/
def Balanced (l r : α) (xs : List α) : Prop := depth l r 0 xs = some 0

instance (xs : List α) : Decidable (Balanced l r xs) :=
  inferInstanceAs (Decidable (_ = _))

@[simp] theorem depth_nil (d : Nat) : depth l r d [] = some d := rfl

@[simp] theorem depth_close_zero (xs : List α) : depth l r 0 (r :: xs) = none := by
  simp [depth]

@[simp] theorem depth_close (d : Nat) (xs : List α) :
    depth l r (d + 1) (r :: xs) = depth l r d xs := by
  simp [depth]

theorem depth_open (h_ne : l ≠ r) (d : Nat) (xs : List α) :
    depth l r d (l :: xs) = depth l r (d + 1) xs := by
  simp [depth, h_ne]

theorem depth_other {x : α} (h_close : x ≠ r) (h_open : x ≠ l) (d : Nat) (xs : List α) :
    depth l r d (x :: xs) = depth l r d xs := by
  simp [depth, h_close, h_open]

/-- One element changes the depth by one step, whatever follows it. -/
theorem depth_cons (d : Nat) (x : α) (xs : List α) :
    depth l r d (x :: xs) = (depth l r d [x]).bind (fun e => depth l r e xs) := by
  by_cases h_close : x = r
  · subst h_close
    cases d with
    | zero => simp
    | succ d => simp
  · by_cases h_open : x = l
    · subst h_open
      simp [depth, h_close]
    · simp [depth, h_close, h_open]

theorem depth_append (d : Nat) (xs ys : List α) :
    depth l r d (xs ++ ys) = (depth l r d xs).bind (fun e => depth l r e ys) := by
  induction xs generalizing d with
  | nil => rfl
  | cons x xs ih =>
    rw [List.cons_append, depth_cons, depth_cons d x xs]
    cases depth l r d [x] with
    | none => rfl
    | some e => exact ih e

/-- More open brackets before the list are still open behind it. -/
theorem depth_add {d e : Nat} {xs : List α} (k : Nat) (h : depth l r d xs = some e) :
    depth l r (d + k) xs = some (e + k) := by
  induction xs generalizing d with
  | nil =>
    rw [depth_nil, Option.some.injEq] at h
    rw [depth_nil, h]
  | cons x xs ih =>
    by_cases h_close : x = r
    · subst h_close
      cases d with
      | zero => simp at h
      | succ d =>
        rw [depth_close] at h
        rw [show d + 1 + k = (d + k) + 1 by omega, depth_close]
        exact ih h
    · by_cases h_open : x = l
      · subst h_open
        rw [depth_open h_close] at h ⊢
        rw [show d + k + 1 = d + 1 + k by omega]
        exact ih h
      · rw [depth_other h_close h_open] at h ⊢
        exact ih h

theorem Balanced.depth {xs : List α} (h : Balanced l r xs) (d : Nat) :
    depth l r d xs = some d := by
  have h_add := depth_add d h
  rwa [Nat.zero_add] at h_add

/-- A bracketed balanced list in front of a balanced one. -/
theorem Balanced.nest {u v : List α} (h_ne : l ≠ r) (hu : Balanced l r u)
    (hv : Balanced l r v) : Balanced l r (l :: (u ++ r :: v)) := by
  show Brackets.depth l r 0 _ = some 0
  rw [depth_open h_ne, depth_append, hu.depth]
  show Brackets.depth l r (0 + 1) (r :: v) = some 0
  rw [depth_close]
  exact hv

/-- The list that starts `k + 1` deep above its end splits where it first comes
    below the bracket it starts in. -/
theorem exists_return {d e k : Nat} {xs : List α}
    (h : depth l r (d + 1 + k) xs = some e) (h_le : e ≤ d) :
    ∃ w u, xs = w ++ r :: u ∧ depth l r k w = some 0 ∧ depth l r d u = some e := by
  induction xs generalizing k with
  | nil =>
    rw [depth_nil, Option.some.injEq] at h
    omega
  | cons x xs ih =>
    by_cases h_close : x = r
    · subst h_close
      cases k with
      | zero =>
        rw [Nat.add_zero, depth_close] at h
        exact ⟨[], xs, rfl, rfl, h⟩
      | succ k =>
        rw [← Nat.add_assoc, depth_close] at h
        obtain ⟨w, u, h_split, hw, hu⟩ := ih h
        refine ⟨x :: w, u, by rw [h_split, List.cons_append], ?_, hu⟩
        rw [depth_close]
        exact hw
    · by_cases h_open : x = l
      · subst h_open
        rw [depth_open h_close] at h
        obtain ⟨w, u, h_split, hw, hu⟩ := ih (k := k + 1) h
        refine ⟨x :: w, u, by rw [h_split, List.cons_append], ?_, hu⟩
        rw [depth_open h_close]
        exact hw
      · rw [depth_other h_close h_open] at h
        obtain ⟨w, u, h_split, hw, hu⟩ := ih h
        refine ⟨x :: w, u, by rw [h_split, List.cons_append], ?_, hu⟩
        rw [depth_other h_close h_open]
        exact hw

/-- A balanced list that opens a bracket first is a bracketed balanced list in
    front of a balanced one. -/
theorem Balanced.of_open {xs : List α} (h_ne : l ≠ r) (h : Balanced l r (l :: xs)) :
    ∃ u v, xs = u ++ r :: v ∧ Balanced l r u ∧ Balanced l r v := by
  have h_depth : Brackets.depth l r (0 + 1 + 0) xs = some 0 := by
    rw [← h, depth_open h_ne]
  exact exists_return h_depth (Nat.le_refl 0)

/-- The prefix that comes down to zero in front of a closing bracket is unique. -/
theorem prefix_unique {k : Nat} {w w' u u' : List α}
    (h : w ++ r :: u = w' ++ r :: u') (hw : depth l r k w = some 0)
    (hw' : depth l r k w' = some 0) : w = w' ∧ u = u' := by
  induction w generalizing k w' with
  | nil =>
    rw [depth_nil, Option.some.injEq] at hw
    subst hw
    cases w' with
    | nil => exact ⟨rfl, (List.cons.inj h).2⟩
    | cons x w' =>
      rw [List.nil_append, List.cons_append] at h
      rw [← (List.cons.inj h).1, depth_close_zero] at hw'
      cases hw'
  | cons x w ih =>
    cases w' with
    | nil =>
      rw [depth_nil, Option.some.injEq] at hw'
      subst hw'
      rw [List.nil_append, List.cons_append] at h
      rw [(List.cons.inj h).1, depth_close_zero] at hw
      cases hw
    | cons x' w' =>
      simp only [List.cons_append, List.cons.injEq] at h
      obtain ⟨rfl, h_rest⟩ := h
      rw [depth_cons] at hw hw'
      cases h_step : depth l r k [x] with
      | none =>
        rw [h_step] at hw
        cases hw
      | some e =>
        rw [h_step] at hw hw'
        obtain ⟨rfl, rfl⟩ := ih h_rest hw hw'
        exact ⟨rfl, rfl⟩

end Kanagawa.Lib.Brackets
