/-
  Kanagawa.Lib.BitonicLists

  Lists that are bitonic for a predicate.

  The elements with the predicate are an interval of the list, taken as a ring.
  A list that rises and then falls is bitonic.  Comparing the elements of the two
  halves pair by pair, and exchanging them so that the predicate moves up, leaves
  two bitonic halves, of which the lower one has the predicate only where all of
  the upper one has it.
-/
import Mathlib

namespace Kanagawa.Lib.BitonicLists

variable {α : Type*} {P : α → Prop} {xs ys lo hi : List α} {h : Nat}

/-- The elements with the predicate are an interval of the ring of places. -/
def Bitonic (P : α → Prop) (xs : List α) : Prop :=
  ∃ s l, ∀ i x, xs[i]? = some x → (P x ↔ (i + s) % xs.length < l)

/-- A list that rises has the predicate from a place on. -/
theorem exists_rise (hrise : xs.Pairwise fun x y => P x → P y) :
    ∃ a, a ≤ xs.length ∧ ∀ i x, xs[i]? = some x → (P x ↔ a ≤ i) := by
  induction xs with
  | nil => exact ⟨0, Nat.le_refl _, fun i x hx => by simp at hx⟩
  | cons y xs ih =>
      obtain ⟨hy, hxs⟩ := List.pairwise_cons.mp hrise
      by_cases hP : P y
      · refine ⟨0, Nat.zero_le _, fun i x hx => ⟨fun _ => Nat.zero_le _, fun _ => ?_⟩⟩
        rcases List.mem_cons.mp (List.mem_of_getElem? hx) with rfl | hmem
        · exact hP
        · exact hy x hmem hP
      · obtain ⟨a, hle, ha⟩ := ih hxs
        refine ⟨a + 1, by simpa using hle, fun i x hx => ?_⟩
        cases i with
        | zero =>
            obtain rfl : y = x := by simpa using hx
            simp [hP]
        | succ i =>
            rw [List.getElem?_cons_succ] at hx
            rw [ha i x hx]
            omega

/-- A list that falls has the predicate up to a place. -/
theorem exists_fall (hfall : xs.Pairwise fun x y => P y → P x) :
    ∃ b, b ≤ xs.length ∧ ∀ i x, xs[i]? = some x → (P x ↔ i < b) := by
  have hrise : xs.Pairwise fun x y => ¬P x → ¬P y := hfall.imp fun hxy => mt hxy
  obtain ⟨b, hle, hb⟩ := exists_rise hrise
  refine ⟨b, hle, fun i x hx => ?_⟩
  have hnot := hb i x hx
  rw [← not_iff_not, hnot, Nat.not_lt]

/-- What rises and then falls is bitonic. -/
theorem bitonic_append (hlo : lo.length = h) (hhi : hi.length = h)
    (hrise : lo.Pairwise fun x y => P x → P y) (hfall : hi.Pairwise fun x y => P y → P x) :
    Bitonic P (lo ++ hi) := by
  obtain ⟨a, hale, ha⟩ := exists_rise hrise
  obtain ⟨b, hble, hb⟩ := exists_fall hfall
  have hlength : (lo ++ hi).length = 2 * h := by
    rw [List.length_append, hlo, hhi, Nat.two_mul]
  refine ⟨2 * h - a, h + b - a, fun i x hx => ?_⟩
  rw [hlength]
  have hi' := (List.getElem?_eq_some_iff.mp hx).1
  rw [hlength] at hi'
  rcases Nat.lt_or_ge i h with hlt | hge
  · rw [List.getElem?_append_left (by omega)] at hx
    rw [ha i x hx]
    rcases Nat.lt_or_ge i a with hia | hai
    · rw [Nat.mod_eq_of_lt (by omega)]
      omega
    · rw [show i + (2 * h - a) = (i - a) + 2 * h by omega, Nat.add_mod_right,
        Nat.mod_eq_of_lt (by omega)]
      omega
  · rw [List.getElem?_append_right (by omega), hlo] at hx
    rw [hb _ x hx, show i + (2 * h - a) = (i - a) + 2 * h by omega, Nat.add_mod_right,
      Nat.mod_eq_of_lt (by omega)]
    omega

/-- The places of a pair are half a ring apart. -/
theorem pair_places (hh : 0 < h) (k : Nat) :
    (k % (2 * h) = k % h ∧ (k + h) % (2 * h) = k % h + h) ∨
      (k % (2 * h) = k % h + h ∧ (k + h) % (2 * h) = k % h) := by
  have hlt := Nat.mod_lt k hh
  have hsplit := Nat.mod_mul (a := h) (b := 2) (x := k)
  rw [Nat.mul_comm] at hsplit
  have hsum : (k + h) % (2 * h) = (k % (2 * h) + h) % (2 * h) := (Nat.mod_add_mod k _ h).symm
  rcases Nat.mod_two_eq_zero_or_one (k / h) with hzero | hone
  · rw [hzero, Nat.mul_zero, Nat.add_zero] at hsplit
    rw [hsplit] at hsum
    exact .inl ⟨hsplit, by rw [hsum, Nat.mod_eq_of_lt (by omega)]⟩
  · rw [hone, Nat.mul_one] at hsplit
    rw [hsplit] at hsum
    refine .inr ⟨hsplit, ?_⟩
    rw [hsum, show k % h + h + h = k % h + 2 * h by omega, Nat.add_mod_right,
      Nat.mod_eq_of_lt (by omega)]

/-- The halves after the pairs of a bitonic list have been exchanged. -/
theorem Bitonic.clean (hxs : Bitonic P (lo ++ hi)) (hlo : lo.length = h) (hhi : hi.length = h)
    (hh : 0 < h) {f g : α → α → α} (hf : ∀ a b, P (f a b) ↔ P a ∧ P b)
    (hg : ∀ a b, P (g a b) ↔ P a ∨ P b) :
    Bitonic P (List.zipWith f lo hi) ∧ Bitonic P (List.zipWith g lo hi) ∧
      ∀ x ∈ List.zipWith f lo hi, ∀ y ∈ List.zipWith g lo hi, P x → P y := by
  obtain ⟨s, l, hl⟩ := hxs
  have hlength : (lo ++ hi).length = 2 * h := by
    rw [List.length_append, hlo, hhi, Nat.two_mul]
  rw [hlength] at hl
  have hpair : ∀ i a b, lo[i]? = some a → hi[i]? = some b →
      (P a ∧ P b ↔ (i + s) % h < l - h) ∧ (P a ∨ P b ↔ (i + s) % h < min l h) := by
    intro i a b ha hb
    have hi' := (List.getElem?_eq_some_iff.mp ha).1
    have hPa := hl i a (by rw [List.getElem?_append_left hi', ha])
    have hPb := hl (i + h) b (by
      rw [List.getElem?_append_right (by omega), hlo, Nat.add_sub_cancel, hb])
    rw [Nat.add_right_comm] at hPb
    have hlt := Nat.mod_lt (i + s) hh
    rw [hPa, hPb]
    rcases pair_places hh (i + s) with ⟨h₁, h₂⟩ | ⟨h₁, h₂⟩ <;> rw [h₁, h₂] <;> omega
  have hf' : (List.zipWith f lo hi).length = h := by simp [hlo, hhi]
  have hg' : (List.zipWith g lo hi).length = h := by simp [hlo, hhi]
  refine ⟨⟨s, l - h, fun i x hx => ?_⟩, ⟨s, min l h, fun i x hx => ?_⟩, fun x hx y hy => ?_⟩
  · obtain ⟨a, b, ha, hb, rfl⟩ := List.getElem?_zipWith_eq_some.mp hx
    rw [hf, hf', (hpair i a b ha hb).1]
  · obtain ⟨a, b, ha, hb, rfl⟩ := List.getElem?_zipWith_eq_some.mp hx
    rw [hg, hg', (hpair i a b ha hb).2]
  · obtain ⟨i, hx'⟩ := List.mem_iff_getElem?.mp hx
    obtain ⟨j, hy'⟩ := List.mem_iff_getElem?.mp hy
    obtain ⟨a, b, ha, hb, rfl⟩ := List.getElem?_zipWith_eq_some.mp hx'
    obtain ⟨c, d, hc, hd, rfl⟩ := List.getElem?_zipWith_eq_some.mp hy'
    rw [hf, hg, (hpair i a b ha hb).1, (hpair j c d hc hd).2]
    have hlt := Nat.mod_lt (j + s) hh
    omega

/-- Exchanging pairs permutes the elements. -/
theorem zipWith_perm {f g : α → α → α}
    (hfg : ∀ a b, (f a b = a ∧ g a b = b) ∨ (f a b = b ∧ g a b = a))
    (hlength : lo.length = hi.length) :
    (List.zipWith f lo hi ++ List.zipWith g lo hi).Perm (lo ++ hi) := by
  induction lo generalizing hi with
  | nil =>
      obtain rfl := List.length_eq_zero_iff.mp hlength.symm
      exact .refl _
  | cons a lo ih =>
      obtain ⟨b, hi, rfl⟩ := List.exists_cons_of_length_eq_add_one hlength.symm
      have hrest := ih (by simpa using hlength)
      rw [List.zipWith_cons_cons, List.zipWith_cons_cons, List.cons_append, List.cons_append]
      have hleft := (@List.perm_middle _ (g a b) (List.zipWith f lo hi)
        (List.zipWith g lo hi)).cons (f a b)
      have hright := (@List.perm_middle _ b lo hi).cons a
      refine hleft.trans (.trans ?_ hright.symm)
      rcases hfg a b with ⟨h₁, h₂⟩ | ⟨h₁, h₂⟩ <;> rw [h₁, h₂]
      · exact (hrest.cons b).cons a
      · exact ((hrest.cons a).cons b).trans (.swap a b _)

end Kanagawa.Lib.BitonicLists
