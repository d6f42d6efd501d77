/-
  Kanagawa.Lib.Slices

  Words of bits that are assigned slice by slice, and slices laid out one after the
  other.
-/
import Mathlib

namespace Kanagawa.Lib

/-- Bits for a slice of a word. -/
structure Slice where
  offset : Nat
  width : Nat
  bit : Nat → Bool

namespace Slice

def Covers (s : Slice) (i : Nat) : Prop := s.offset ≤ i ∧ i < s.offset + s.width

instance (s : Slice) (i : Nat) : Decidable (s.Covers i) :=
  inferInstanceAs (Decidable (s.offset ≤ i ∧ i < s.offset + s.width))

/-- The word with the slice assigned. -/
def assign (word : Nat → Bool) (s : Slice) : Nat → Bool :=
  fun i => if s.Covers i then s.bit (i - s.offset) else word i

/-- The slices of a list assigned one after the other. -/
def assignAll (word : Nat → Bool) (slices : List Slice) : Nat → Bool := slices.foldl assign word

theorem assignAll_of_not_covers {word : Nat → Bool} {slices : List Slice} {i : Nat}
    (h : ∀ s ∈ slices, ¬ s.Covers i) : assignAll word slices i = word i := by
  induction slices generalizing word with
  | nil => rfl
  | cons s slices ih =>
      rw [assignAll, List.foldl_cons, ← assignAll,
        ih (fun s' hs' => h s' (List.mem_cons_of_mem _ hs')), assign,
        if_neg (h s List.mem_cons_self)]

/-- A bit on which all slices that cover it agree. -/
theorem assignAll_of_covers {word : Nat → Bool} {slices : List Slice} {i : Nat} {b : Bool}
    (hsome : ∃ s ∈ slices, s.Covers i)
    (hall : ∀ s ∈ slices, s.Covers i → s.bit (i - s.offset) = b) :
    assignAll word slices i = b := by
  induction slices generalizing word with
  | nil => simp at hsome
  | cons s slices ih =>
      rw [assignAll, List.foldl_cons, ← assignAll]
      have hall' : ∀ s' ∈ slices, s'.Covers i → s'.bit (i - s'.offset) = b :=
        fun s' hs' => hall s' (List.mem_cons_of_mem _ hs')
      by_cases hrest : ∃ s' ∈ slices, s'.Covers i
      · exact ih hrest hall'
      · -- only the first slice covers the bit
        have hnone : ∀ s' ∈ slices, ¬ s'.Covers i := fun s' hs' hc => hrest ⟨s', hs', hc⟩
        obtain ⟨s', hs', hc⟩ := hsome
        have hhead : s.Covers i := by
          rcases List.mem_cons.mp hs' with rfl | hmem
          · exact hc
          · exact absurd hc (hnone s' hmem)
        rw [assignAll_of_not_covers hnone, assign, if_pos hhead]
        exact hall s List.mem_cons_self hhead

end Slice

/-! ## Ranges one after the other -/

/-- A list of ranges, as offset and width, in which each starts where the one in front
    of it ends. -/
def Consecutive : Nat → List (Nat × Nat) → Prop
  | _, [] => True
  | start, range :: ranges => range.1 = start ∧ Consecutive (start + range.2) ranges

/-- The sum of the widths. -/
def totalWidth (ranges : List (Nat × Nat)) : Nat := (ranges.map Prod.snd).sum

@[simp] theorem totalWidth_nil : totalWidth [] = 0 := rfl

@[simp] theorem totalWidth_cons (range : Nat × Nat) (ranges : List (Nat × Nat)) :
    totalWidth (range :: ranges) = range.2 + totalWidth ranges := by
  simp [totalWidth]

@[simp] theorem totalWidth_append (ranges ranges' : List (Nat × Nat)) :
    totalWidth (ranges ++ ranges') = totalWidth ranges + totalWidth ranges' := by
  simp [totalWidth]

namespace Consecutive

theorem concat {start : Nat} {ranges : List (Nat × Nat)} (h : Consecutive start ranges)
    (width : Nat) : Consecutive start (ranges ++ [(start + totalWidth ranges, width)]) := by
  induction ranges generalizing start with
  | nil => simp [Consecutive]
  | cons range ranges ih =>
      refine ⟨h.1, ?_⟩
      have hrest := ih h.2
      rw [totalWidth_cons, ← Nat.add_assoc]
      exact hrest

theorem bounds {start : Nat} {ranges : List (Nat × Nat)} (h : Consecutive start ranges)
    {range : Nat × Nat} (hmem : range ∈ ranges) :
    start ≤ range.1 ∧ range.1 + range.2 ≤ start + totalWidth ranges := by
  induction ranges generalizing start with
  | nil => simp at hmem
  | cons head ranges ih =>
      obtain ⟨hhead, hrest⟩ := h
      rw [totalWidth_cons]
      rcases List.mem_cons.mp hmem with rfl | hmem
      · omega
      · have := ih hrest hmem
        omega

/-- Earlier ranges end in front of later ones. -/
theorem pairwise {start : Nat} {ranges : List (Nat × Nat)} (h : Consecutive start ranges) :
    ranges.Pairwise fun a b => a.1 + a.2 ≤ b.1 := by
  induction ranges generalizing start with
  | nil => exact List.Pairwise.nil
  | cons head ranges ih =>
      obtain ⟨hhead, hrest⟩ := h
      refine List.pairwise_cons.mpr ⟨?_, ih hrest⟩
      intro range hmem
      have := (hrest.bounds hmem).1
      omega

/-- The ranges cover everything from the start to the end of the last one. -/
theorem covers {start : Nat} {ranges : List (Nat × Nat)} (h : Consecutive start ranges) (i : Nat) :
    (∃ range ∈ ranges, range.1 ≤ i ∧ i < range.1 + range.2) ↔
      start ≤ i ∧ i < start + totalWidth ranges := by
  refine ⟨?_, ?_⟩
  · rintro ⟨range, hmem, hle, hlt⟩
    have := h.bounds hmem
    omega
  · rintro ⟨hle, hlt⟩
    induction ranges generalizing start with
    | nil =>
        rw [totalWidth_nil] at hlt
        omega
    | cons head ranges ih =>
        obtain ⟨hhead, hrest⟩ := h
        rw [totalWidth_cons] at hlt
        by_cases hin : i < start + head.2
        · exact ⟨head, List.mem_cons_self, by omega, by omega⟩
        · obtain ⟨range, hmem, hcov⟩ := ih hrest (by omega) (by omega)
          exact ⟨range, List.mem_cons_of_mem _ hmem, hcov⟩

/-- A position is in one range only. -/
theorem unique {start : Nat} {ranges : List (Nat × Nat)} (h : Consecutive start ranges)
    {a b : Nat} {x y : Nat × Nat} (ha : ranges[a]? = some x) (hb : ranges[b]? = some y) {i : Nat}
    (hx : x.1 ≤ i ∧ i < x.1 + x.2) (hy : y.1 ≤ i ∧ i < y.1 + y.2) : a = b := by
  obtain ⟨hal, rfl⟩ := List.getElem?_eq_some_iff.mp ha
  obtain ⟨hbl, rfl⟩ := List.getElem?_eq_some_iff.mp hb
  have hpair := List.pairwise_iff_getElem.mp h.pairwise
  rcases Nat.lt_trichotomy a b with hlt | heq | hlt
  · have := hpair a b hal hbl hlt
    omega
  · exact heq
  · have := hpair b a hbl hal hlt
    omega

/-- The widths determine the ranges. -/
theorem eq_of_widths {start : Nat} {ranges ranges' : List (Nat × Nat)}
    (h : Consecutive start ranges) (h' : Consecutive start ranges')
    (hwidths : ranges.map Prod.snd = ranges'.map Prod.snd) : ranges = ranges' := by
  induction ranges generalizing start ranges' with
  | nil => exact (List.map_eq_nil_iff.mp hwidths.symm).symm
  | cons head ranges ih =>
      rcases ranges' with _ | ⟨head', ranges'⟩
      · simp at hwidths
      · simp only [List.map_cons, List.cons.injEq] at hwidths
        have hhead : head = head' := Prod.ext (h.1.trans h'.1.symm) hwidths.1
        subst hhead
        rw [ih h.2 h'.2 hwidths.2]

end Consecutive

/-- Disjoint ranges in a word that are together as wide as the word cover it. -/
theorem covers_of_disjoint {ranges : List (Nat × Nat)}
    (hdisjoint : ranges.Pairwise fun a b => a.1 + a.2 ≤ b.1 ∨ b.1 + b.2 ≤ a.1)
    (hbound : ∀ range ∈ ranges, range.1 + range.2 ≤ totalWidth ranges) {i : Nat}
    (hi : i < totalWidth ranges) : ∃ range ∈ ranges, range.1 ≤ i ∧ i < range.1 + range.2 := by
  -- the positions that are covered, counted
  let positions : List (Nat × Nat) → Finset Nat := fun ranges =>
    ranges.foldr (fun range s => Finset.Ico range.1 (range.1 + range.2) ∪ s) ∅
  have hmem : ∀ (ranges : List (Nat × Nat)) (i : Nat), i ∈ positions ranges ↔
      ∃ range ∈ ranges, range.1 ≤ i ∧ i < range.1 + range.2 := by
    intro ranges i
    induction ranges with
    | nil => simp [positions]
    | cons head ranges ih =>
        have hcons : positions (head :: ranges) =
          Finset.Ico head.1 (head.1 + head.2) ∪ positions ranges := rfl
        rw [hcons, Finset.mem_union, Finset.mem_Ico, ih]
        simp only [List.mem_cons, exists_eq_or_imp]
  have hcard : ∀ ranges : List (Nat × Nat),
      ranges.Pairwise (fun a b => a.1 + a.2 ≤ b.1 ∨ b.1 + b.2 ≤ a.1) →
      (positions ranges).card = totalWidth ranges := by
    intro ranges hpairwise
    induction ranges with
    | nil => rfl
    | cons head ranges ih =>
        obtain ⟨hhead, hrest⟩ := List.pairwise_cons.mp hpairwise
        have hcons : positions (head :: ranges) =
          Finset.Ico head.1 (head.1 + head.2) ∪ positions ranges := rfl
        have hdisj : Disjoint (Finset.Ico head.1 (head.1 + head.2)) (positions ranges) := by
          rw [Finset.disjoint_left]
          intro x hx hx'
          obtain ⟨range, hrange, hle, hlt⟩ := (hmem ranges x).mp hx'
          have := Finset.mem_Ico.mp hx
          have := hhead range hrange
          omega
        rw [hcons, Finset.card_union_of_disjoint hdisj, ih hrest, totalWidth_cons, Nat.card_Ico]
        omega
  have hsub : positions ranges ⊆ Finset.range (totalWidth ranges) := by
    intro x hx
    obtain ⟨range, hrange, -, hlt⟩ := (hmem ranges x).mp hx
    have := hbound range hrange
    exact Finset.mem_range.mpr (by omega)
  have hall : positions ranges = Finset.range (totalWidth ranges) :=
    Finset.eq_of_subset_of_card_le hsub (by rw [hcard ranges hdisjoint, Finset.card_range])
  rw [← hmem, hall]
  exact Finset.mem_range.mpr hi

end Kanagawa.Lib
