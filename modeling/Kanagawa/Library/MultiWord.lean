/-
  Kanagawa.Library.MultiWord

  Numbers of several words (`numeric/int/multi_word.k`).

  A word is added with the carry of the words below it, which enters through an extra low bit of
  both operands and leaves through the bit above the word.  The smaller and the larger of two
  numbers are chosen from the most significant word down, from what the words above have told.
-/
import Kanagawa.Lib.Radix
import Kanagawa.Library.Modular

namespace Kanagawa.Library.MultiWord

open Frontend IntValue Lib.Radix Lib.TwosComplement Kanagawa.Library.Modular

/-! ## One word -/

/-- `add_with_carry`. -/
def addWithCarry (T : Ty) (a b carry : IntValue) : IntValue × IntValue :=
  -- The sum of the low bits carries `carry` into the sum of the words
  let sumWCarry := (((a.shiftLeft 1).or (const 1)).add ((b.shiftLeft 1).or carry)).shiftRight 1
  let carryOut := (sumWCarry.shiftRight (widthOf T).toNat).cast uint1
  let sum := sumWCarry.cast T
  (sum, carryOut)

/-- `sub_with_borrow`. -/
def subWithBorrow (T : Ty) (a b borrow : IntValue) : IntValue × IntValue :=
  let subWBorrow := ((a.shiftLeft 1).sub ((b.shiftLeft 1).or borrow)).shiftRight 1
  let borrowOut := (subWBorrow.shiftRight (widthOf T).toNat).cast uint1
  let sub := subWBorrow.cast T
  (sub, borrowOut)

/-- `comp_metadata`. -/
structure CompMetadata where
  allPreviousWordsEq : Bool
  selectAWordsOnPrevnoteq : Bool

/-- `get_initial_comp_metadata`. -/
def getInitialCompMetadata : CompMetadata := ⟨true, true⟩

/-- A word of the number that compares `before`, and what the words so far tell. -/
def selectWithMetadata (before : Int → Int → Bool) (a b : IntValue) (prev : CompMetadata) :
    IntValue × CompMetadata :=
  let retWord :=
    if prev.allPreviousWordsEq then if before a.value b.value then a else b
    else if prev.selectAWordsOnPrevnoteq then a else b
  let eqAB := a.value == b.value
  let select :=
    if !prev.allPreviousWordsEq then prev.selectAWordsOnPrevnoteq
    else if !eqAB then before a.value b.value else prev.selectAWordsOnPrevnoteq
  (retWord, ⟨prev.allPreviousWordsEq && eqAB, select⟩)

/-- `min_with_metadata`. -/
def minWithMetadata (a b : IntValue) (prev : CompMetadata) : IntValue × CompMetadata :=
  selectWithMetadata (fun x y => x < y) a b prev

/-- `max_with_metadata`. -/
def maxWithMetadata (a b : IntValue) (prev : CompMetadata) : IntValue × CompMetadata :=
  selectWithMetadata (fun x y => x > y) a b prev

/-! ## All words -/

/-- A function of two words and a state, called for the words of two numbers in order. -/
def foldWords {σ : Type} (f : IntValue → IntValue → σ → IntValue × σ) :
    List IntValue → List IntValue → σ → List IntValue × σ
  | a :: as, b :: bs, state =>
      let (word, next) := f a b state
      let (words, last) := foldWords f as bs next
      (word :: words, last)
  | _, _, state => ([], state)

/-- A word of an unsigned type. -/
def word {w : Nat} (x : BitVec w) : IntValue := ⟨.unsigned w, x.toNat⟩

/-- A carry, or a borrow. -/
def bitOf (c : Bool) : IntValue := ⟨uint1, c.toNat⟩

/-- The number with the given words, least significant first. -/
def valueOf {w : Nat} (xs : List (BitVec w)) : Int := ofWords w (xs.map fun x => (x.toNat : Int))

variable {w : Nat}

@[simp] theorem valueOf_nil : valueOf ([] : List (BitVec w)) = 0 := rfl

@[simp] theorem valueOf_cons (x : BitVec w) (xs : List (BitVec w)) :
    valueOf (x :: xs) = x.toNat + 2 ^ w * valueOf xs := rfl

theorem valueOf_nonneg (xs : List (BitVec w)) : 0 ≤ valueOf xs := by
  induction xs with
  | nil => exact le_rfl
  | cons x xs ih =>
      have hpow := two_pow_pos w
      rw [valueOf_cons]
      positivity

theorem valueOf_lt (xs : List (BitVec w)) : valueOf xs < 2 ^ (w * xs.length) := by
  induction xs with
  | nil => simp
  | cons x xs ih =>
      have hx : (x.toNat : Int) < 2 ^ w := by exact_mod_cast x.isLt
      have hpow := two_pow_pos w
      rw [valueOf_cons, List.length_cons, Nat.mul_succ, Nat.add_comm, pow_add]
      nlinarith

theorem valueOf_concat (xs : List (BitVec w)) (x : BitVec w) :
    valueOf (xs ++ [x]) = valueOf xs + 2 ^ (w * xs.length) * x.toNat := by
  induction xs with
  | nil => simp
  | cons y xs ih =>
      rw [List.cons_append, valueOf_cons, valueOf_cons, ih, List.length_cons, Nat.mul_succ,
        pow_add]
      ring

/-! ## Sums and differences -/

theorem holds_word (hw : 0 < w) (x : BitVec w) : Holds (word x) x.toNat :=
  holds_natCast hw x.isLt

theorem holds_bitOf (c : Bool) : Holds (bitOf c) c.toNat :=
  holds_natCast (w := 1) (by decide) (Bool.toNat_lt c)

/-- The low bit of a number shifted by one is free. -/
theorem lor_bit (x : Nat) (c : Bool) : Int.lor (x * 2 ^ 1) c.toNat = x * 2 + c.toNat := by
  have hor := Nat.two_pow_add_eq_or_of_lt (b := c.toNat) (i := 1) (Bool.toNat_lt c) x
  have hlor : Int.lor ((x * 2 ^ 1 : Nat) : Int) (c.toNat : Nat) = ((x * 2 ^ 1 ||| c.toNat : Nat)) :=
    rfl
  rw [Nat.mul_comm x, ← hor] at hlor
  push_cast at hlor
  rw [Int.mul_comm (x : Int), pow_one, hlor]
  ring

/-- The word of an intermediate result, and the bit above it. -/
theorem outputs_eq {s : IntValue} {d : Int} (hs : Holds s d) :
    (s.cast (.unsigned w), (s.shiftRight w).cast uint1)
      = (word (BitVec.ofInt w d), bitOf (d / 2 ^ w % 2 = 1)) := by
  have hpow := two_pow_pos w
  have hword : convert (.unsigned w) d = (BitVec.ofInt w d).toNat := by
    rw [BitVec.toNat_ofInt, Int.toNat_of_nonneg (by push_cast; exact Int.emod_nonneg d hpow.ne')]
    push_cast
    rfl
  have hbit : convert uint1 (d / 2 ^ w) = (decide (d / 2 ^ w % 2 = 1)).toNat := by
    show d / 2 ^ w % 2 = _
    rcases Int.emod_two_eq (d / 2 ^ w) with h | h <;> rw [h] <;> rfl
  refine Prod.ext ?_ ?_
  · rw [IntValue.cast, hs.value_eq, hword]
    rfl
  · show (s.shiftRight w).cast uint1 = _
    rw [IntValue.cast, (hs.shiftRight w).value_eq, hbit]
    rfl

theorem toNat_ofInt_eq (d : Int) : ((BitVec.ofInt w d).toNat : Int) = d - 2 ^ w * (d / 2 ^ w) := by
  have hpow := two_pow_pos w
  rw [BitVec.toNat_ofInt, Int.toNat_of_nonneg (by push_cast; exact Int.emod_nonneg d hpow.ne')]
  push_cast
  exact Int.emod_def d (2 ^ w)

/-- The intermediate sum has the carry above the word. -/
theorem addWithCarry_eq (hw : 0 < w) (a b : BitVec w) (c : Bool) :
    ∃ (z : BitVec w) (c' : Bool),
      addWithCarry (.unsigned w) (word a) (word b) (bitOf c) = (word z, bitOf c') ∧
      (z.toNat : Int) + 2 ^ w * c'.toNat = a.toNat + b.toNat + c.toNat := by
  have ha := ((holds_word hw a).shiftLeft 1).or (holds_const (true.toNat : Nat))
  have hb := ((holds_word hw b).shiftLeft 1).or (holds_bitOf c)
  rw [lor_bit] at ha hb
  have hsum := (ha.add hb).shiftRight 1
  -- The low bits add up to one more than the carry
  have hexact : ((a.toNat : Int) * 2 + (true.toNat : Nat) + (b.toNat * 2 + c.toNat)) / 2 ^ 1
      = a.toNat + b.toNat + c.toNat := by
    cases c <;> simp only [Bool.toNat_true, Bool.toNat_false] <;> omega
  rw [hexact] at hsum
  refine ⟨_, _, outputs_eq hsum, ?_⟩
  have hlow : (a.toNat : Int) < 2 ^ w := by exact_mod_cast a.isLt
  have hhigh : (b.toNat : Int) < 2 ^ w := by exact_mod_cast b.isLt
  have hc : (c.toNat : Int) < 2 := by exact_mod_cast Bool.toNat_lt c
  have hpow := two_pow_pos w
  set d := (a.toNat : Int) + b.toNat + c.toNat with hd
  have hcarry : d / 2 ^ w = 0 ∨ d / 2 ^ w = 1 := by
    have hnonneg : 0 ≤ d / 2 ^ w := Int.ediv_nonneg (by omega) hpow.le
    have hlt : d / 2 ^ w < 2 := Int.ediv_lt_of_lt_mul hpow (by omega)
    omega
  rw [toNat_ofInt_eq]
  rcases hcarry with h | h <;> rw [h] <;> simp

/-- A negative difference lacks the borrow above the word. -/
theorem subWithBorrow_eq (hw : 0 < w) (a b : BitVec w) (c : Bool) :
    ∃ (z : BitVec w) (c' : Bool),
      subWithBorrow (.unsigned w) (word a) (word b) (bitOf c) = (word z, bitOf c') ∧
      (z.toNat : Int) - 2 ^ w * c'.toNat = a.toNat - b.toNat - c.toNat := by
  have ha := (holds_word hw a).shiftLeft 1
  have hb := ((holds_word hw b).shiftLeft 1).or (holds_bitOf c)
  rw [lor_bit] at hb
  have hsub := (ha.sub hb).shiftRight 1
  have hexact : ((a.toNat : Int) * 2 ^ 1 - (b.toNat * 2 + c.toNat)) / 2 ^ 1
      = a.toNat - b.toNat - c.toNat := by
    cases c <;> simp only [Bool.toNat_true, Bool.toNat_false] <;> omega
  rw [hexact] at hsub
  refine ⟨_, _, outputs_eq hsub, ?_⟩
  have hlow : (a.toNat : Int) < 2 ^ w := by exact_mod_cast a.isLt
  have hhigh : (b.toNat : Int) < 2 ^ w := by exact_mod_cast b.isLt
  have hc : (c.toNat : Int) < 2 := by exact_mod_cast Bool.toNat_lt c
  have hpow := two_pow_pos w
  set d := (a.toNat : Int) - b.toNat - c.toNat with hd
  have hborrow : d / 2 ^ w = 0 ∨ d / 2 ^ w = -1 := by
    have hge : -1 ≤ d / 2 ^ w := (Int.le_ediv_iff_mul_le hpow).mpr (by omega)
    have hlt : d / 2 ^ w < 1 := Int.ediv_lt_of_lt_mul hpow (by omega)
    omega
  rw [toNat_ofInt_eq]
  rcases hborrow with h | h <;> rw [h] <;> simp

/-- The weight of a word beyond the number. -/
theorem pow_length_cons (x : BitVec w) (xs : List (BitVec w)) :
    (2 : Int) ^ (w * (x :: xs).length) = 2 ^ w * 2 ^ (w * xs.length) := by
  rw [List.length_cons, Nat.mul_succ, Nat.add_comm, pow_add]

theorem foldWords_addWithCarry (hw : 0 < w) (xs ys : List (BitVec w))
    (hlength : xs.length = ys.length) (c : Bool) :
    ∃ (zs : List (BitVec w)) (c' : Bool),
      foldWords (addWithCarry (.unsigned w)) (xs.map word) (ys.map word) (bitOf c)
        = (zs.map word, bitOf c') ∧ zs.length = xs.length ∧
      valueOf zs + 2 ^ (w * xs.length) * c'.toNat = valueOf xs + valueOf ys + c.toNat := by
  induction xs generalizing ys c with
  | nil =>
      obtain rfl := List.length_eq_zero_iff.mp hlength.symm
      exact ⟨[], c, rfl, rfl, by simp⟩
  | cons x xs ih =>
      obtain ⟨y, ys, rfl⟩ := List.exists_cons_of_length_eq_add_one hlength.symm
      obtain ⟨z, c₁, hstep, hword⟩ := addWithCarry_eq hw x y c
      obtain ⟨zs, c', hrest, hzs, hvalue⟩ := ih ys (by simpa using hlength) c₁
      refine ⟨z :: zs, c', ?_, by simp [hzs], ?_⟩
      · simp only [List.map_cons, foldWords, hstep, hrest]
      · rw [pow_length_cons, valueOf_cons, valueOf_cons, valueOf_cons]
        linear_combination hword + 2 ^ w * hvalue

theorem foldWords_subWithBorrow (hw : 0 < w) (xs ys : List (BitVec w))
    (hlength : xs.length = ys.length) (c : Bool) :
    ∃ (zs : List (BitVec w)) (c' : Bool),
      foldWords (subWithBorrow (.unsigned w)) (xs.map word) (ys.map word) (bitOf c)
        = (zs.map word, bitOf c') ∧ zs.length = xs.length ∧
      valueOf zs - 2 ^ (w * xs.length) * c'.toNat = valueOf xs - valueOf ys - c.toNat := by
  induction xs generalizing ys c with
  | nil =>
      obtain rfl := List.length_eq_zero_iff.mp hlength.symm
      exact ⟨[], c, rfl, rfl, by simp⟩
  | cons x xs ih =>
      obtain ⟨y, ys, rfl⟩ := List.exists_cons_of_length_eq_add_one hlength.symm
      obtain ⟨z, c₁, hstep, hword⟩ := subWithBorrow_eq hw x y c
      obtain ⟨zs, c', hrest, hzs, hvalue⟩ := ih ys (by simpa using hlength) c₁
      refine ⟨z :: zs, c', ?_, by simp [hzs], ?_⟩
      · simp only [List.map_cons, foldWords, hstep, hrest]
      · rw [pow_length_cons, valueOf_cons, valueOf_cons, valueOf_cons]
        linear_combination hword + 2 ^ w * hvalue

/-! ## The smaller and the larger number -/

theorem word_inj {x y : BitVec w} (h : (word x).value = (word y).value) : x = y :=
  BitVec.eq_of_toNat_eq (Int.ofNat_inj.mp h)

/-- Once two words differ, all words come from the number that was chosen there. -/
theorem foldWords_chosen (before : Int → Int → Bool) (xs ys : List (BitVec w))
    (hlength : xs.length = ys.length) (select : Bool) :
    (foldWords (selectWithMetadata before) (xs.map word) (ys.map word) ⟨false, select⟩).1
      = (if select then xs else ys).map word := by
  induction xs generalizing ys with
  | nil =>
      obtain rfl := List.length_eq_zero_iff.mp hlength.symm
      cases select <;> rfl
  | cons x xs ih =>
      obtain ⟨y, ys, rfl⟩ := List.exists_cons_of_length_eq_add_one hlength.symm
      have hrest := ih ys (by simpa using hlength)
      simp only [List.map_cons, foldWords, selectWithMetadata, Bool.false_and, Bool.not_false,
        if_true, Bool.false_eq_true, if_false, hrest]
      cases select <;> rfl

/-- The first words that differ decide. -/
theorem foldWords_select (before : Int → Int → Bool) (hirrefl : ∀ x, before x x = false)
    (hlift : ∀ (x y u v k : Int), 0 ≤ u → u < k → 0 ≤ v → v < k → x ≠ y →
      before (u + k * x) (v + k * y) = before x y)
    (hshift : ∀ u v k : Int, before (u + k) (v + k) = before u v)
    (xs ys : List (BitVec w)) (hlength : xs.length = ys.length) (select : Bool) :
    (foldWords (selectWithMetadata before) (xs.map word) (ys.map word) ⟨true, select⟩).1
      = (if before (valueOf xs.reverse) (valueOf ys.reverse) then xs else ys).map word := by
  induction xs generalizing ys with
  | nil =>
      obtain rfl := List.length_eq_zero_iff.mp hlength.symm
      rw [ite_self]
      rfl
  | cons x xs ih =>
      obtain ⟨y, ys, rfl⟩ := List.exists_cons_of_length_eq_add_one hlength.symm
      have hlength' : xs.length = ys.length := by simpa using hlength
      rw [List.reverse_cons, List.reverse_cons, valueOf_concat, valueOf_concat,
        List.length_reverse, List.length_reverse, hlength']
      simp only [List.map_cons, foldWords, selectWithMetadata, if_true, Bool.true_and,
        Bool.not_true, Bool.false_eq_true, if_false]
      by_cases heq : (word x).value = (word y).value
      · -- Equal words leave the choice to the words below
        obtain rfl := word_inj heq
        have hrest := ih ys hlength'
        simp only [beq_self_eq_true, Bool.not_true, Bool.false_eq_true, if_false, hirrefl,
          hshift, hrest]
        split <;> rfl
      · have hne : ((word x).value == (word y).value) = false := beq_eq_false_iff_ne.mpr heq
        have hxs := valueOf_lt xs.reverse
        have hys := valueOf_lt ys.reverse
        rw [List.length_reverse, hlength'] at hxs
        rw [List.length_reverse] at hys
        have hdecide := hlift (word x).value (word y).value (valueOf xs.reverse)
          (valueOf ys.reverse) _ (valueOf_nonneg _) hxs (valueOf_nonneg _) hys heq
        have hchosen := foldWords_chosen before xs ys hlength'
          (before (word x).value (word y).value)
        simp only [hne, Bool.not_false, if_true, hchosen]
        rw [show (x.toNat : Int) = (word x).value from rfl,
          show (y.toNat : Int) = (word y).value from rfl, hdecide]
        split <;> rfl

theorem lift_lt {x y u v k : Int} (hu : 0 ≤ u) (huk : u < k) (hv : 0 ≤ v) (hvk : v < k)
    (hne : x ≠ y) : u + k * x < v + k * y ↔ x < y := by
  constructor
  · intro h
    by_contra hle
    have hlt : y + 1 ≤ x := by omega
    nlinarith
  · intro h
    have hle : x + 1 ≤ y := h
    nlinarith

theorem foldWords_minWithMetadata (xs ys : List (BitVec w)) (hlength : xs.length = ys.length) :
    (foldWords minWithMetadata (xs.map word) (ys.map word) getInitialCompMetadata).1
      = (if valueOf xs.reverse < valueOf ys.reverse then xs else ys).map word := by
  have h := foldWords_select (fun x y => decide (x < y)) (by simp)
    (fun x y u v k hu huk hv hvk hne => decide_eq_decide.mpr (lift_lt hu huk hv hvk hne))
    (by simp) xs ys hlength true
  simp only [decide_eq_true_eq] at h
  exact h

theorem foldWords_maxWithMetadata (xs ys : List (BitVec w)) (hlength : xs.length = ys.length) :
    (foldWords maxWithMetadata (xs.map word) (ys.map word) getInitialCompMetadata).1
      = (if valueOf xs.reverse > valueOf ys.reverse then xs else ys).map word := by
  have h := foldWords_select (fun x y => decide (x > y)) (by simp)
    (fun x y u v k hu huk hv hvk hne => decide_eq_decide.mpr (lift_lt hv hvk hu huk hne.symm))
    (by simp) xs ys hlength true
  simp only [decide_eq_true_eq] at h
  exact h

/-- Sums and differences from the least significant word up, and the smaller and the larger
    number from the most significant word down. -/
theorem multi_word_composes (hw : 0 < w) (xs ys : List (BitVec w))
    (hlength : xs.length = ys.length) :
    (∃ (zs : List (BitVec w)) (carry : Bool),
      foldWords (addWithCarry (.unsigned w)) (xs.map word) (ys.map word) (bitOf false)
        = (zs.map word, bitOf carry) ∧ zs.length = xs.length ∧
      valueOf zs = (valueOf xs + valueOf ys) % 2 ^ (w * xs.length) ∧
      (carry.toNat : Int) = (valueOf xs + valueOf ys) / 2 ^ (w * xs.length)) ∧
    (∃ (zs : List (BitVec w)) (borrow : Bool),
      foldWords (subWithBorrow (.unsigned w)) (xs.map word) (ys.map word) (bitOf false)
        = (zs.map word, bitOf borrow) ∧ zs.length = xs.length ∧
      valueOf zs = (valueOf xs - valueOf ys) % 2 ^ (w * xs.length) ∧
      borrow = decide (valueOf xs < valueOf ys)) ∧
    (∃ zs : List (BitVec w),
      (foldWords minWithMetadata (xs.reverse.map word) (ys.reverse.map word)
        getInitialCompMetadata).1 = zs.reverse.map word ∧ (zs = xs ∨ zs = ys) ∧
      valueOf zs = min (valueOf xs) (valueOf ys)) ∧
    (∃ zs : List (BitVec w),
      (foldWords maxWithMetadata (xs.reverse.map word) (ys.reverse.map word)
        getInitialCompMetadata).1 = zs.reverse.map word ∧ (zs = xs ∨ zs = ys) ∧
      valueOf zs = max (valueOf xs) (valueOf ys)) := by
  have hreverse : xs.reverse.length = ys.reverse.length := by simpa using hlength
  have hpow := two_pow_pos (w * xs.length)
  refine ⟨?_, ?_, ?_, ?_⟩
  · obtain ⟨zs, c, hfold, hzs, hvalue⟩ := foldWords_addWithCarry hw xs ys hlength false
    rw [Bool.toNat_false, Nat.cast_zero, add_zero] at hvalue
    have hnonneg := valueOf_nonneg zs
    have hlt := valueOf_lt zs
    rw [hzs] at hlt
    refine ⟨zs, c, hfold, hzs, ?_, ?_⟩
    · rw [← hvalue, Int.add_mul_emod_self_left, Int.emod_eq_of_lt hnonneg hlt]
    · rw [← hvalue, Int.add_mul_ediv_left _ _ hpow.ne', Int.ediv_eq_zero_of_lt hnonneg hlt,
        zero_add]
  · obtain ⟨zs, c, hfold, hzs, hvalue⟩ := foldWords_subWithBorrow hw xs ys hlength false
    rw [Bool.toNat_false, Nat.cast_zero, sub_zero] at hvalue
    have hnonneg := valueOf_nonneg zs
    have hlt := valueOf_lt zs
    rw [hzs] at hlt
    refine ⟨zs, c, hfold, hzs, ?_, ?_⟩
    · rw [← hvalue, Int.sub_mul_emod_self_left, Int.emod_eq_of_lt hnonneg hlt]
    · -- Without a borrow the difference is the number of the words
      cases c with
      | false =>
          rw [Bool.toNat_false, Nat.cast_zero, mul_zero] at hvalue
          exact (decide_eq_false (by omega)).symm
      | true =>
          rw [Bool.toNat_true, Nat.cast_one, mul_one] at hvalue
          exact (decide_eq_true (by omega)).symm
  · have hfold := foldWords_minWithMetadata xs.reverse ys.reverse hreverse
    rw [List.reverse_reverse, List.reverse_reverse] at hfold
    rcases lt_or_ge (valueOf xs) (valueOf ys) with hlt | hge
    · rw [if_pos hlt] at hfold
      exact ⟨xs, hfold, .inl rfl, (min_eq_left hlt.le).symm⟩
    · rw [if_neg (not_lt.mpr hge)] at hfold
      exact ⟨ys, hfold, .inr rfl, (min_eq_right hge).symm⟩
  · have hfold := foldWords_maxWithMetadata xs.reverse ys.reverse hreverse
    rw [List.reverse_reverse, List.reverse_reverse] at hfold
    rcases lt_or_ge (valueOf ys) (valueOf xs) with hlt | hge
    · rw [if_pos hlt] at hfold
      exact ⟨xs, hfold, .inl rfl, (max_eq_left hlt.le).symm⟩
    · rw [if_neg (not_lt.mpr hge)] at hfold
      exact ⟨ys, hfold, .inr rfl, (max_eq_right hge).symm⟩

/-- 1·256 + 255 and 2·256 + 3, in bytes. -/
theorem multi_word_composes_bytes :
    ∃ (zs : List (BitVec 8)) (carry : Bool),
      foldWords (addWithCarry (.unsigned 8)) ([255, 1].map (word (w := 8)))
        ([3, 2].map (word (w := 8))) (bitOf false) = (zs.map word, bitOf carry) ∧
      valueOf zs = 4 * 256 + 2 := by
  obtain ⟨⟨zs, carry, hfold, -, hvalue, -⟩, -⟩ :=
    multi_word_composes (w := 8) (by decide) [255, 1] [3, 2] rfl
  exact ⟨zs, carry, hfold, hvalue.trans (by decide)⟩

end Kanagawa.Library.MultiWord
