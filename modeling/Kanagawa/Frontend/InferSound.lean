/-
  Kanagawa.Frontend.InferSound

  When an inferred type holds the result.

  For every operator the exact result of an operation on integers is compared
  with the type that inference gives it.  The rules are wide enough except in
  three places: division by a literal that is not a power of two, the
  remainder of a signed value by an unsigned one, and a left shift by a literal
  that an `Int` cannot hold.
-/
import Kanagawa.Lib.TwosComplement
import Kanagawa.Frontend.Infer

namespace Kanagawa.Frontend

open Lib.TwosComplement

/-! ## Values and exact results -/

/-- The values of an integer type, and the numbers a truth value stands for. -/
def InRange : Ty → Int → Prop
  | .unsigned w, v => 0 < w ∧ 0 ≤ v ∧ v < 2 ^ w.toNat
  | .signed w, v => 0 < w ∧ -2 ^ (w - 1).toNat ≤ v ∧ v < 2 ^ (w - 1).toNat
  | .boolean, v => v = 0 ∨ v = 1
  | _, _ => False

/-- The exact result of a binary operator on integers: quotient and remainder
    round toward zero, a right shift rounds down, bitwise operators act on the
    infinite two's complement expansion.  The logical operators have none. -/
def exactBinary : BinaryOp → Int → Int → Option Int
  | .add, x, y => some (x + y)
  | .sub, x, y => some (x - y)
  | .mul, x, y | .lutMul, x, y => some (x * y)
  | .div, x, y => some (x.tdiv y)
  | .mod, x, y => some (x.tmod y)
  | .bitwiseAnd, x, y => some (Int.land x y)
  | .bitwiseOr, x, y => some (Int.lor x y)
  | .bitwiseXor, x, y => some (Int.xor x y)
  | .shiftLeft, x, y => some (x * 2 ^ y.toNat)
  | .shiftRight, x, y => some (x / 2 ^ y.toNat)
  | .equal, x, y => some (if x = y then 1 else 0)
  | .notEqual, x, y => some (if x ≠ y then 1 else 0)
  | .greater, x, y => some (if x > y then 1 else 0)
  | .greaterEqual, x, y => some (if x ≥ y then 1 else 0)
  | .less, x, y => some (if x < y then 1 else 0)
  | .lessEqual, x, y => some (if x ≤ y then 1 else 0)
  | .or, _, _ | .and, _, _ | .xor, _, _ => none

/-- Divisors are positive and shift amounts are not negative. -/
def Allowed : BinaryOp → Int → Prop
  | .div, y | .mod, y => 0 < y
  | .shiftLeft, y | .shiftRight, y => 0 ≤ y
  | _, _ => True

/-- The exact result of inversion and negation.  Inversion flips the bits of
    the operand's own pattern: of an unsigned value those of its width, else
    all of them. -/
def exactUnary (op : UnaryOp) (e : Exp) (x : Int) : Option Int :=
  match op with
  | .neg => some (-x)
  | .invert =>
      if isUntypedIntLiteral e then some (Int.lnot x)
      else match typeOfOperand e with
        | .unsigned w => some (2 ^ w.toNat - 1 - x)
        | _ => some (Int.lnot x)
  | _ => none

/-- The width of an integer type. -/
def widthOf : Ty → Int
  | .unsigned w => w
  | .signed w => w
  | _ => 0

/-- An integer operand: its type is an integer type of some positive width, and
    a literal is in range of its type. -/
structure IntOperand (e : Exp) : Prop where
  isInt : (∃ w, typeOfOperand e = .unsigned w) ∨ ∃ w, typeOfOperand e = .signed w
  width_pos : 0 < widthOf (typeOfOperand e)
  width_lt : widthOf (typeOfOperand e) < 2 ^ 63
  inRange : ∀ x, fromIntegralConstexpr e = some x → InRange (typeOfOperand e) x

/-- The values an operand can have: its own if it is a literal, else any value
    of its type. -/
def Takes (e : Exp) (x : Int) : Prop :=
  match fromIntegralConstexpr e with
  | some n => x = n
  | none => InRange (typeOfOperand e) x

theorem IntOperand.inRange_of_takes {e : Exp} (he : IntOperand e) {x : Int} (hx : Takes e x) :
    InRange (typeOfOperand e) x := by
  unfold Takes at hx
  split at hx
  · next n hn =>
    subst hx
    exact he.inRange x hn
  · exact hx

theorem inRange_unsigned {w : Int} {m : Nat} {v : Int} (hpos : 0 < w) (h0 : 0 ≤ v)
    (h : Within m v) (hm : (m : Int) ≤ w) : InRange (.unsigned w) v :=
  ⟨hpos, h0, (h.mono (by omega)).2⟩

theorem inRange_signed {w : Int} {m : Nat} {v : Int} (h : Within m v) (hm : (m : Int) + 1 ≤ w) :
    InRange (.signed w) v := by
  have hmono := h.mono (show m ≤ (w - 1).toNat by omega)
  exact ⟨by omega, hmono.1, hmono.2⟩

theorem InRange.within_unsigned {w v : Int} (h : InRange (.unsigned w) v) : Within w.toNat v :=
  within_of_nonneg h.2.1 h.2.2

theorem InRange.within_signed {w v : Int} (h : InRange (.signed w) v) : Within (w - 1).toNat v :=
  ⟨h.2.1, h.2.2⟩

/-! ## The ceiling logarithm -/

theorem clog2_eq {n : Int} (hn : 0 < n) : clog2 n = Nat.clog 2 n.toNat := by
  lift n to Nat using hn.le
  have hn : n ≠ 0 := by omega
  have hland : Int.land (n : Int) (n - 1) = ((n &&& (n - 1) : Nat) : Int) := by
    rw [show ((n : Int) - 1) = ((n - 1 : Nat) : Int) by omega]
    rfl
  simp only [clog2, hland, integerLog2, Int.toNat_natCast, Int.natCast_eq_zero]
  have hle := Nat.log2_self_le hn
  have hlt := Nat.lt_log2_self (n := n)
  split
  · next hzero =>
    obtain ⟨k, rfl⟩ := (Nat.and_sub_one_eq_zero_iff_isPowerOfTwo hn).mp hzero
    rw [Nat.log2_two_pow, Nat.clog_pow 2 k (by decide)]
  · next hzero =>
    have hne : n ≠ 2 ^ n.log2 := fun h =>
      hzero ((Nat.and_sub_one_eq_zero_iff_isPowerOfTwo hn).mpr ⟨_, h⟩)
    have hceil : Nat.clog 2 n = n.log2 + 1 := by
      apply le_antisymm
      · exact (Nat.clog_le_iff_le_pow (by decide)).mpr hlt.le
      · exact (Nat.lt_clog_iff_pow_lt (by decide)).mpr (lt_of_le_of_ne hle (Ne.symm hne))
    rw [hceil]
    push_cast
    rfl

theorem clog2_nonneg {n : Int} (hn : 0 < n) : 0 ≤ clog2 n := by
  rw [clog2_eq hn]
  exact Int.natCast_nonneg _

/-- A positive number is at most the power of two its ceiling logarithm names. -/
theorem le_two_pow_clog2 {n : Int} (hn : 0 < n) : n ≤ 2 ^ (clog2 n).toNat := by
  rw [clog2_eq hn, Int.toNat_natCast]
  have h := Nat.le_pow_clog (b := 2) (by decide) n.toNat
  zify at h
  omega

/-- One bit less is too few, unless the number is one. -/
theorem two_pow_lt_of_clog2 {n : Int} (hn : 1 < n) : 2 ^ (clog2 n - 1).toNat < n := by
  rw [clog2_eq (by omega)]
  have hpos := Nat.clog_pos (b := 2) (n := n.toNat) (by decide) (by omega)
  have h := Nat.pow_pred_clog_lt_self (b := 2) (by decide) (x := n.toNat) (by omega)
  rw [show ((Nat.clog 2 n.toNat : Int) - 1).toNat = (Nat.clog 2 n.toNat).pred by
    rw [Nat.pred_eq_sub_one]; omega]
  zify at h
  omega

theorem clog2_two_pow (k : Nat) : clog2 (2 ^ k) = k := by
  rw [clog2_eq (two_pow_pos k)]
  rw [show ((2 : Int) ^ k).toNat = 2 ^ k by
    rw [show ((2 : Int) ^ k) = ((2 ^ k : Nat) : Int) by push_cast; rfl, Int.toNat_natCast],
    Nat.clog_pow 2 k (by decide)]

theorem clog2_pos {n : Int} (hn : 1 < n) : 0 < clog2 n := by
  rw [clog2_eq (by omega)]
  exact_mod_cast Nat.clog_pos (b := 2) (n := n.toNat) (by decide) (by omega)

/-! ## Integer types -/

/-- The two kinds of integer types. -/
inductive IsIntType : Ty → Prop where
  | unsigned (w : Int) : IsIntType (.unsigned w)
  | signed (w : Int) : IsIntType (.signed w)

theorem IsIntType.tIsInt {t : Ty} (h : IsIntType t) : tIsInt t = true := by
  cases h <;> rfl

theorem tSuper_unsigned (x y : Int) : tSuper (.unsigned x) (.unsigned y) = .unsigned (max x y) := by
  rw [tSuper]
  by_cases h : x = y
  · subst h
    simp [tResolved]
  · simp [tResolved, h]

theorem tSuper_signed (x y : Int) : tSuper (.signed x) (.signed y) = .signed (max x y) := by
  rw [tSuper]
  by_cases h : x = y
  · subst h
    simp [tResolved]
  · simp [tResolved, h]

theorem tSuper_signed_unsigned (x y : Int) :
    tSuper (.signed x) (.unsigned y) = .signed (max x (y + 1)) := by
  rw [tSuper]
  simp [tResolved]

theorem tSuper_unsigned_signed (x y : Int) :
    tSuper (.unsigned x) (.signed y) = .signed (max (x + 1) y) := by
  rw [tSuper]
  simp [tResolved]

theorem isIntType_tSuper {s t : Ty} (hs : IsIntType s) (ht : IsIntType t) :
    IsIntType (tSuper s t) := by
  cases hs <;> cases ht <;>
    simp only [tSuper_unsigned, tSuper_signed, tSuper_signed_unsigned, tSuper_unsigned_signed]
  · exact .unsigned _
  · exact .signed _
  · exact .signed _
  · exact .signed _

/-- A common supertype holds the values of its first argument. -/
theorem inRange_tSuper_left {s t : Ty} {v : Int} (hs : IsIntType s) (ht : IsIntType t)
    (hv : InRange s v) : InRange (tSuper s t) v := by
  cases hs with
  | unsigned x =>
      have hx := hv.within_unsigned
      cases ht with
      | unsigned y =>
          rw [tSuper_unsigned]
          exact inRange_unsigned (by have := hv.1; omega) hv.2.1 hx (by have := hv.1; omega)
      | signed y =>
          rw [tSuper_unsigned_signed]
          exact inRange_signed hx (by have := hv.1; omega)
  | signed x =>
      have hx := hv.within_signed
      cases ht with
      | unsigned y =>
          rw [tSuper_signed_unsigned]
          exact inRange_signed hx (by have := hv.1; omega)
      | signed y =>
          rw [tSuper_signed]
          exact inRange_signed hx (by have := hv.1; omega)

theorem tSuper_comm {s t : Ty} (hs : IsIntType s) (ht : IsIntType t) :
    tSuper s t = tSuper t s := by
  cases hs <;> cases ht <;>
    simp only [tSuper_unsigned, tSuper_signed, tSuper_signed_unsigned, tSuper_unsigned_signed,
      max_comm]

theorem inRange_tSuper_right {s t : Ty} {v : Int} (hs : IsIntType s) (ht : IsIntType t)
    (hv : InRange t v) : InRange (tSuper s t) v := by
  rw [tSuper_comm hs ht]
  exact inRange_tSuper_left ht hs hv

/-- An operator that needs no more bits than its operands fits their common
    supertype. -/
theorem inRange_tSuper {f : Int → Int → Int}
    (hf : ∀ {m : Nat} {x y : Int}, Within m x → Within m y → Within m (f x y))
    (hnn : ∀ {x y : Int}, 0 ≤ x → 0 ≤ y → 0 ≤ f x y) {s t : Ty} {x y : Int} (hs : IsIntType s)
    (ht : IsIntType t) (hx : InRange s x) (hy : InRange t y) : InRange (tSuper s t) (f x y) := by
  have hx' := inRange_tSuper_left hs ht hx
  have hy' := inRange_tSuper_right hs ht hy
  cases hs with
  | unsigned v =>
      cases ht with
      | unsigned w =>
          rw [tSuper_unsigned] at hx' hy' ⊢
          exact inRange_unsigned hx'.1 (hnn hx'.2.1 hy'.2.1)
            (hf hx'.within_unsigned hy'.within_unsigned) (by have := hx'.1; omega)
      | signed w =>
          rw [tSuper_unsigned_signed] at hx' hy' ⊢
          exact inRange_signed (hf hx'.within_signed hy'.within_signed) (by have := hx'.1; omega)
  | signed v =>
      cases ht with
      | unsigned w =>
          rw [tSuper_signed_unsigned] at hx' hy' ⊢
          exact inRange_signed (hf hx'.within_signed hy'.within_signed) (by have := hx'.1; omega)
      | signed w =>
          rw [tSuper_signed] at hx' hy' ⊢
          exact inRange_signed (hf hx'.within_signed hy'.within_signed) (by have := hx'.1; omega)

/-! ## The rules for types -/

section Rules

variable {s t : Ty} {x y : Int}

theorem inRange_tAdd (hs : IsIntType s) (ht : IsIntType t) (hx : InRange s x)
    (hy : InRange t y) : InRange (tAdd s t) (x + y) := by
  cases hs with
  | unsigned v =>
      have hwx := hx.within_unsigned
      cases ht with
      | unsigned w =>
          have hwy := hy.within_unsigned
          have hsum := (hwx.mono (le_max_left _ _)).add (hwy.mono (le_max_right _ _))
          exact inRange_unsigned (by have := hx.1; omega) (add_nonneg hx.2.1 hy.2.1) hsum
            (by have := hx.1; omega)
      | signed w =>
          have hwy := hy.within_signed
          have hsum := (hwx.mono (le_max_left _ _)).add (hwy.mono (le_max_right _ _))
          exact inRange_signed hsum (by have := hx.1; have := hy.1; omega)
  | signed v =>
      have hwx := hx.within_signed
      cases ht with
      | unsigned w =>
          have hwy := hy.within_unsigned
          have hsum := (hwx.mono (le_max_left _ _)).add (hwy.mono (le_max_right _ _))
          exact inRange_signed hsum (by have := hx.1; have := hy.1; omega)
      | signed w =>
          have hwy := hy.within_signed
          have hsum := (hwx.mono (le_max_left _ _)).add (hwy.mono (le_max_right _ _))
          exact inRange_signed hsum (by have := hx.1; have := hy.1; omega)

theorem inRange_tSub (hs : IsIntType s) (ht : IsIntType t) (hx : InRange s x)
    (hy : InRange t y) : InRange (tSub s t) (x - y) := by
  cases hs with
  | unsigned v =>
      have hwx := hx.within_unsigned
      cases ht with
      | unsigned w =>
          have hwy := hy.within_unsigned
          have hdiff := within_sub_of_nonneg hx.2.1 (hwx.mono (le_max_left _ w.toNat)).2 hy.2.1
            (hwy.mono (le_max_right v.toNat _)).2
          exact inRange_signed hdiff (by have := hx.1; omega)
      | signed w =>
          have hwy := hy.within_signed
          have hdiff := (hwx.mono (le_max_left _ _)).sub (hwy.mono (le_max_right _ _))
          exact inRange_signed hdiff (by have := hx.1; have := hy.1; omega)
  | signed v =>
      have hwx := hx.within_signed
      cases ht with
      | unsigned w =>
          have hwy := hy.within_unsigned
          have hdiff := (hwx.mono (le_max_left _ _)).sub (hwy.mono (le_max_right _ _))
          exact inRange_signed hdiff (by have := hx.1; have := hy.1; omega)
      | signed w =>
          have hwy := hy.within_signed
          have hdiff := (hwx.mono (le_max_left _ _)).sub (hwy.mono (le_max_right _ _))
          exact inRange_signed hdiff (by have := hx.1; have := hy.1; omega)

theorem inRange_tMul (hs : IsIntType s) (ht : IsIntType t) (hx : InRange s x)
    (hy : InRange t y) : InRange (tMul s t) (x * y) := by
  have hpx := hx
  cases hs with
  | unsigned v =>
      have hwx := hx.within_unsigned
      cases ht with
      | unsigned w =>
          have hprod := hwx.mul_of_nonneg hy.2.1 hy.2.2.le
          exact inRange_unsigned (by have := hx.1; have := hy.1; omega)
            (mul_nonneg hx.2.1 hy.2.1) hprod (by have := hx.1; have := hy.1; omega)
      | signed w =>
          have hprod := hy.within_signed.mul_of_nonneg hx.2.1 hx.2.2.le
          rw [mul_comm] at hprod
          exact inRange_signed hprod (by have := hx.1; have := hy.1; omega)
  | signed v =>
      have hwx := hx.within_signed
      cases ht with
      | unsigned w =>
          have hprod := hwx.mul_of_nonneg hy.2.1 hy.2.2.le
          exact inRange_signed hprod (by have := hx.1; have := hy.1; omega)
      | signed w =>
          have hprod := hwx.mul hy.within_signed
          exact inRange_signed hprod (by have := hx.1; have := hy.1; omega)

theorem inRange_tdiv (hs : IsIntType s) (hx : InRange s x) (hy : 0 ≤ y) :
    InRange s (x.tdiv y) := by
  cases hs with
  | unsigned v =>
      exact inRange_unsigned hx.1 (Int.tdiv_nonneg hx.2.1 hy) (hx.within_unsigned.tdiv hy)
        (by have := hx.1; omega)
  | signed v => exact inRange_signed (hx.within_signed.tdiv hy) (by have := hx.1; omega)

theorem inRange_shiftR (hs : IsIntType s) (hx : InRange s x) (n : Nat) :
    InRange s (x / 2 ^ n) := by
  cases hs with
  | unsigned v =>
      exact inRange_unsigned hx.1 (Int.ediv_nonneg hx.2.1 (two_pow_pos n).le)
        (hx.within_unsigned.ediv_two_pow.mono (Nat.sub_le _ _)) (by have := hx.1; omega)
  | signed v =>
      exact inRange_signed (hx.within_signed.ediv_two_pow.mono (Nat.sub_le _ _))
        (by have := hx.1; omega)

theorem inRange_tBitwiseAnd (hs : IsIntType s) (ht : IsIntType t) (hx : InRange s x)
    (hy : InRange t y) : InRange (tBitwiseAnd s t) (Int.land x y) := by
  have hsuper := inRange_tSuper (fun h h' => h.land h') (fun h _ => land_nonneg h _) hs ht hx hy
  cases hs with
  | unsigned v =>
      cases ht with
      | unsigned w =>
          have hleft := land_lt_two_pow hx.2.1 hx.2.2 y
          have hright := land_lt_two_pow hy.2.1 hy.2.2 x
          rw [land_comm] at hright
          have hnn := land_nonneg hx.2.1 y
          refine ⟨by have := hx.1; have := hy.1; omega, hnn, ?_⟩
          rcases le_total v w with h | h
          · rwa [min_eq_left h]
          · rwa [min_eq_right h]
      | signed w => exact hsuper
  | signed v =>
      cases ht with
      | unsigned w => exact hsuper
      | signed w => exact hsuper

/-- A positive factor of at most `2 ^ k` takes `k` more bits. -/
theorem inRange_tWidenInt (hs : IsIntType s) (hx : InRange s x) {n : Int} {k : Nat} {c : Int}
    (hn0 : 0 ≤ n) (hn : n ≤ 2 ^ k) (hk : (k : Int) ≤ c) : InRange (tWidenInt s c) (x * n) := by
  cases hs with
  | unsigned v =>
      exact inRange_unsigned (by have := hx.1; omega) (mul_nonneg hx.2.1 hn0)
        (hx.within_unsigned.mul_of_nonneg hn0 hn) (by have := hx.1; omega)
  | signed v =>
      exact inRange_signed (hx.within_signed.mul_of_nonneg hn0 hn) (by have := hx.1; omega)

/-- A result of the sign of `x` that drops `k` of its bits fits the type
    narrowed by at most `k`. -/
theorem inRange_tNarrowInt (hs : IsIntType s) (hx : InRange s x) {r : Int} {k : Nat} {c : Int}
    (hc : c ≤ k) (hsign : 0 ≤ x → 0 ≤ r) (hdrop : ∀ m, Within m x → Within (m - k) r) :
    InRange (tNarrowInt s c) r := by
  cases hs with
  | unsigned v =>
      exact inRange_unsigned (by omega) (hsign hx.2.1) (hdrop _ hx.within_unsigned)
        (by have := hx.1; omega)
  | signed v =>
      exact inRange_signed (hdrop _ hx.within_signed) (by have := hx.1; omega)

theorem inRange_tShiftL (hs : IsIntType s) (ht : IsIntType t) (hx : InRange s x)
    (hy : InRange t y) (hy0 : 0 ≤ y) :
    tIsError (tShiftL s t) = true ∨ InRange (tShiftL s t) (x * 2 ^ y.toNat) := by
  have hwidth : ∃ w, tWidth t = some w ∧ y < 2 ^ w.toNat := by
    cases ht with
    | unsigned w => exact ⟨w, rfl, hy.2.2⟩
    | signed w => exact ⟨w, rfl, (hy.within_signed.mono (by omega)).2⟩
  obtain ⟨w, hw, hlt⟩ := hwidth
  unfold tShiftL
  rw [hs.tIsInt, ht.tIsInt, hw]
  simp only [Bool.and_self, Bool.not_true, Bool.false_eq_true, if_false, Option.getD_some]
  split
  · exact .inl rfl
  · exact .inr (inRange_tWidenInt hs hx (two_pow_pos _).le le_rfl (by omega))

theorem inRange_tMod_unsigned {v : Int} (ht : IsIntType t) (hx : InRange (.unsigned v) x)
    (hy : InRange t y) (hy0 : 0 < y) : InRange (tMod (.unsigned v) t) (x.tmod y) := by
  have hnn := Int.tmod_nonneg y hx.2.1
  cases ht with
  | unsigned w =>
      show InRange (.unsigned w) (x.tmod y)
      exact inRange_unsigned hy.1 hnn (within_tmod_of_le hy0 hy.2.2.le) (by have := hy.1; omega)
  | signed w =>
      show InRange (.unsigned w) (x.tmod y)
      exact inRange_unsigned hy.1 hnn (within_tmod_of_le hy0 hy.2.2.le) (by have := hy.1; omega)

theorem inRange_tMod_signed {v w : Int} (hy : InRange (.signed w) y) (hy0 : 0 < y) :
    InRange (tMod (.signed v) (.signed w)) (x.tmod y) := by
  show InRange (.signed w) (x.tmod y)
  exact inRange_signed (within_tmod_of_le hy0 hy.2.2.le) (by have := hy.1; omega)

/-! ## The rules for literals -/

theorem inRange_tModLiteral (hs : IsIntType s) (hx : InRange s x) {n : Int} (hn : 0 < n) :
    InRange (tModLiteral s n) (x.tmod n) := by
  have hsmall := within_tmod_of_le (v := x) hn (le_two_pow_clog2 hn)
  have hc := clog2_nonneg hn
  unfold tModLiteral
  rw [if_neg (by omega), if_neg (by omega)]
  cases hs with
  | unsigned v =>
      have hnn := Int.tmod_nonneg n hx.2.1
      have hv := hx.1
      by_cases h1 : n = 1
      · subst h1
        rw [Int.tmod_one]
        exact ⟨by decide, by decide, by decide⟩
      · have hpos := clog2_pos (n := n) (by omega)
        simp only [h1, if_false]
        rcases le_total v (clog2 n) with h | h
        · rw [min_eq_left h]
          exact inRange_unsigned hv hnn (hx.within_unsigned.tmod n) (by omega)
        · rw [min_eq_right h]
          exact inRange_unsigned hpos hnn hsmall (by omega)
  | signed v =>
      have hv := hx.1
      by_cases h1 : n = 1
      · subst h1
        rw [Int.tmod_one]
        exact ⟨by decide, by decide, by decide⟩
      · simp only [h1, if_false]
        rcases le_total v (1 + clog2 n) with h | h
        · rw [min_eq_left h]
          exact inRange_signed (hx.within_signed.tmod n) (by omega)
        · rw [min_eq_right h]
          exact inRange_signed hsmall (by omega)

theorem land_zero (v : Int) : Int.land v 0 = 0 := by
  rw [land_comm]
  cases v with
  | ofNat m => exact congrArg Int.ofNat (Nat.zero_and m)
  | negSucc m => simp [Int.land, Nat.ldiff]

theorem inRange_tAndLiteral (hs : IsIntType s) (hx : InRange s x) (n : Int) :
    InRange (tAndLiteral s n) (Int.land x n) := by
  cases hs with
  | unsigned v =>
      have hv := hx.1
      have hnn := land_nonneg hx.2.1 n
      have hlt := land_lt_two_pow hx.2.1 hx.2.2 n
      rw [tAndLiteral]
      split_ifs with h0 hneg
      · subst h0
        rw [land_zero]
        exact ⟨by decide, by decide, by decide⟩
      · exact ⟨hv, hnn, hlt⟩
      · have hn := le_two_pow_clog2 (n := n + 1) (by omega)
        have hmask := land_lt_two_pow (m := (clog2 (n + 1)).toNat) (v := n) (by omega)
          (by omega) x
        rw [land_comm] at hmask
        have hpos := clog2_pos (n := n + 1) (by omega)
        rcases le_total v (clog2 (n + 1)) with h | h
        · rw [min_eq_left h]
          exact ⟨hv, hnn, hlt⟩
        · rw [min_eq_right h]
          exact ⟨hpos, hnn, hmask⟩
  | signed v =>
      have hv := hx.1
      rw [tAndLiteral]
      split_ifs with h0 hneg
      · subst h0
        rw [land_zero]
        exact ⟨by decide, by decide, by decide⟩
      · have hn := le_two_pow_clog2 (n := 1 - n) (by omega)
        have hc := clog2_nonneg (n := 1 - n) (by omega)
        have hmask : Within (clog2 (1 - n)).toNat n := ⟨by omega, by
          have := two_pow_pos (clog2 (1 - n)).toNat
          omega⟩
        have hand := (hx.within_signed.mono (le_max_left _ _)).land
          (hmask.mono (le_max_right _ _))
        exact inRange_signed hand (by omega)
      · have hn := le_two_pow_clog2 (n := n + 1) (by omega)
        have hc := clog2_nonneg (n := n + 1) (by omega)
        have hmask := land_lt_two_pow (m := (clog2 (n + 1)).toNat) (v := n) (by omega)
          (by omega) x
        have hnn := land_nonneg (v := n) (by omega) x
        rw [land_comm] at hmask hnn
        exact inRange_signed (within_of_nonneg hnn hmask) (by omega)

theorem inRange_tNeg (hs : IsIntType s) (hx : InRange s x) : InRange (tNeg s) (-x) := by
  cases hs with
  | unsigned v =>
      have h0 : Within v.toNat (0 - x) :=
        within_sub_of_nonneg le_rfl (two_pow_pos _) hx.2.1 hx.2.2
      rw [zero_sub] at h0
      exact inRange_signed h0 (by have := hx.1; omega)
  | signed v => exact inRange_signed hx.within_signed.neg (by have := hx.1; omega)

theorem isIntType_tNeg (hs : IsIntType s) : IsIntType (tNeg s) := by
  cases hs <;> exact .signed _

theorem inRange_tMulLiteral (hs : IsIntType s) (hx : InRange s x) (n : Int) :
    InRange (tMulLiteral s n) (x * n) := by
  unfold tMulLiteral
  rw [hs.tIsInt, (isIntType_tNeg hs).tIsInt]
  simp only [Bool.not_true, Bool.false_eq_true, if_false]
  split_ifs with h0 hsig hneg
  · subst h0
    rw [mul_zero]
    exact ⟨by decide, by decide, by decide⟩
  · subst h0
    rw [mul_zero]
    exact ⟨by decide, by decide, by decide⟩
  · have hn := le_two_pow_clog2 (n := n.natAbs) (by omega)
    have hc := clog2_nonneg (n := n.natAbs) (by omega)
    have hprod := inRange_tWidenInt (isIntType_tNeg hs) (inRange_tNeg hs hx) (by omega) hn
      (c := clog2 n.natAbs) (by omega)
    rwa [show -x * (n.natAbs : Int) = x * n by
      rw [show (n.natAbs : Int) = -n by omega]; ring] at hprod
  · exact inRange_tWidenInt hs hx (by omega) (le_two_pow_clog2 (by omega))
      (by have := clog2_nonneg (n := n) (by omega); omega)

/-! ## Shifts by a literal -/

theorem wrapInt_eq {n : Int} (hn0 : 0 ≤ n) (hn : n < 2 ^ 63) : wrapInt n = n := by
  rw [wrapInt, Int.bmod_def]
  push_cast
  split <;> omega

/-- An amount that an `Int` cannot hold comes out at least `2 ^ 64` too small. -/
theorem wrapInt_le_sub {n : Int} (hn : 2 ^ 63 ≤ n) : wrapInt n ≤ n - 2 ^ 64 := by
  rw [wrapInt, Int.bmod_def]
  push_cast
  split <;> omega

theorem wrapInt_le {n : Int} (hn : 0 ≤ n) : wrapInt n ≤ n := by
  rcases lt_or_ge n (2 ^ 63) with h | h
  · exact (wrapInt_eq hn h).le
  · have := wrapInt_le_sub h
    omega

theorem inRange_tShiftRLiteral (hs : IsIntType s) (hx : InRange s x) {n : Int} (hn : 0 ≤ n) :
    InRange (tShiftRLiteral s (wrapInt n)) (x / 2 ^ n.toNat) := by
  unfold tShiftRLiteral
  rw [if_pos hs.tIsInt]
  have hle := wrapInt_le hn
  exact inRange_tNarrowInt hs hx (k := n.toNat) (by omega)
    (fun h => Int.ediv_nonneg h (two_pow_pos _).le) fun m h => h.ediv_two_pow

theorem inRange_tShiftLLiteral (hs : IsIntType s) (hx : InRange s x) {n : Int} (hn0 : 0 ≤ n)
    (hn : n < 2 ^ 63) : InRange (tShiftLLiteral s (wrapInt n)) (x * 2 ^ n.toNat) := by
  unfold tShiftLLiteral
  rw [if_pos hs.tIsInt, wrapInt_eq hn0 hn]
  exact inRange_tWidenInt hs hx (two_pow_pos _).le le_rfl (by omega)

/-- A number other than zero shifted by an amount that an `Int` cannot hold
    never fits. -/
theorem not_inRange_tShiftLLiteral (hs : IsIntType s) (hw : widthOf s < 2 ^ 63) {n : Int}
    (hn : 2 ^ 63 ≤ n) (hx : x ≠ 0) :
    ¬ InRange (tShiftLLiteral s (wrapInt n)) (x * 2 ^ n.toNat) := by
  have hle := wrapInt_le_sub hn
  unfold tShiftLLiteral
  rw [if_pos hs.tIsInt]
  have hpow := two_pow_pos n.toNat
  cases hs with
  | unsigned v =>
      have hv : v < 2 ^ 63 := hw
      rintro ⟨-, hlo, hhi⟩
      have hbits : (2 : Int) ^ (v + wrapInt n).toNat ≤ 2 ^ n.toNat := two_pow_le (by omega)
      have hx0 : 0 < x := lt_of_le_of_ne (nonneg_of_mul_nonneg_left hlo hpow) (Ne.symm hx)
      nlinarith
  | signed v =>
      have hv : v < 2 ^ 63 := hw
      rintro ⟨-, hlo, hhi⟩
      have hbits : (2 : Int) ^ (v + wrapInt n - 1).toNat ≤ 2 ^ (n.toNat - 1) :=
        two_pow_le (by omega)
      have hdouble : (2 : Int) ^ n.toNat = 2 * 2 ^ (n.toNat - 1) := by
        rw [← pow_succ', Nat.sub_add_cancel (by omega)]
      have hhalf := two_pow_pos (n.toNat - 1)
      rcases lt_or_gt_of_ne hx with h | h
      · nlinarith
      · nlinarith

theorem inRange_zero_tShiftLLiteral (hs : IsIntType s) (c : Int) :
    InRange (tShiftLLiteral s c) 0 ↔ 0 < widthOf s + c := by
  unfold tShiftLLiteral
  rw [if_pos hs.tIsInt]
  cases hs with
  | unsigned v => exact ⟨fun h => h.1, fun h => ⟨h, le_rfl, two_pow_pos _⟩⟩
  | signed v =>
      refine ⟨fun h => h.1, fun h => ⟨h, ?_, two_pow_pos _⟩⟩
      have := two_pow_pos (v + c - 1).toNat
      omega

/-! ## Division by a literal -/

theorem tDivLiteral_of_pos (hs : IsIntType s) {n : Int} (hn : 0 < n) :
    tDivLiteral s n = tNarrowInt s (clog2 n) := by
  unfold tDivLiteral
  rw [hs.tIsInt, if_neg (by decide), if_neg (by omega), if_neg (by omega)]

theorem inRange_tDivLiteral_two_pow (hs : IsIntType s) (hx : InRange s x) (k : Nat) :
    InRange (tDivLiteral s (2 ^ k)) (x.tdiv (2 ^ k)) := by
  rw [tDivLiteral_of_pos hs (two_pow_pos k), clog2_two_pow]
  exact inRange_tNarrowInt hs hx le_rfl (fun h => Int.tdiv_nonneg h (two_pow_pos k).le)
    fun m h => h.tdiv_of_two_pow_le le_rfl

/-- The dividend has too few bits for the narrowed type to lose any. -/
def NarrowDividend (s : Ty) (n : Int) : Prop :=
  match s with
  | .unsigned v => v ≤ clog2 n
  | .signed v => v ≤ clog2 n + 1
  | _ => False

/-- The dividend `x` is small enough for its quotient to fit the narrowed type. -/
def SmallDividend (s : Ty) (n x : Int) : Prop :=
  match s with
  | .unsigned v => x < n * 2 ^ (v - clog2 n).toNat
  | .signed v =>
      -(n * (2 ^ (v - clog2 n - 1).toNat + 1)) < x ∧ x < n * 2 ^ (v - clog2 n - 1).toNat
  | _ => False

theorem inRange_tDivLiteral_of_narrow (hs : IsIntType s) (hx : InRange s x) {n : Int} (hn : 0 < n)
    (h : NarrowDividend s n) : InRange (tDivLiteral s n) (x.tdiv n) := by
  rw [tDivLiteral_of_pos hs hn]
  rcases eq_or_lt_of_le (show 1 ≤ n from hn) with rfl | h1
  · -- division by one, and the dividend has no more than one bit
    have hc : clog2 1 = 0 := clog2_two_pow 0
    rw [Int.tdiv_one, hc]
    exact inRange_tNarrowInt hs hx (k := 0) le_rfl id fun m h => h
  · have hc := clog2_pos h1
    cases hs with
    | unsigned v =>
        have hv : v ≤ clog2 n := h
        have hq := hx.within_unsigned.tdiv_of_two_pow_le (two_pow_lt_of_clog2 h1).le
        exact inRange_unsigned (by omega) (Int.tdiv_nonneg hx.2.1 hn.le) hq (by omega)
    | signed v =>
        have hv : v ≤ clog2 n + 1 := h
        have hq := hx.within_signed.tdiv_of_two_pow_le (two_pow_lt_of_clog2 h1).le
        exact inRange_signed hq (by omega)

/-- Without a power of two and with bits to lose, the quotient fits iff the
    dividend is small. -/
theorem inRange_tDivLiteral_iff (hs : IsIntType s) (hx : InRange s x) {n : Int} (hn : 0 < n)
    (hwide : ¬ NarrowDividend s n) :
    InRange (tDivLiteral s n) (x.tdiv n) ↔ SmallDividend s n x := by
  rw [tDivLiteral_of_pos hs hn]
  cases hs with
  | unsigned v =>
      have hv : clog2 n < v := not_le.mp hwide
      have hnn := Int.tdiv_nonneg hx.2.1 hn.le
      rw [tNarrowInt, max_eq_right (by omega)]
      have hiff : x.tdiv n < 2 ^ (v - clog2 n).toNat ↔ x < n * 2 ^ (v - clog2 n).toNat := by
        rw [Int.tdiv_eq_ediv_of_nonneg hx.2.1, Int.ediv_lt_iff_lt_mul hn, mul_comm]
      exact ⟨fun h => hiff.mp h.2.2, fun h => ⟨by omega, hnn, hiff.mpr h⟩⟩
  | signed v =>
      have hv : clog2 n + 1 < v := not_le.mp hwide
      rw [tNarrowInt, max_eq_right (by omega)]
      have hp := two_pow_pos (v - clog2 n - 1).toNat
      show _ ∧ _ ∧ _ ↔ _ ∧ _
      generalize (2 : Int) ^ (v - clog2 n - 1).toNat = p at hp ⊢
      have hpos : 0 < v - clog2 n := by omega
      simp only [hpos, true_and]
      rcases lt_or_ge x 0 with hneg | hnn
      · have hq : (-x) / n = -(x.tdiv n) := by
          rw [← Int.tdiv_eq_ediv_of_nonneg (by omega), Int.neg_tdiv]
        have hlow : -p ≤ x.tdiv n ↔ -(n * (p + 1)) < x := by
          rw [show -p ≤ x.tdiv n ↔ (-x) / n < p + 1 by omega, Int.ediv_lt_iff_lt_mul hn]
          constructor <;> intro h <;> linarith [mul_comm n (p + 1)]
        have hle : x.tdiv n ≤ 0 := by
          have := Int.ediv_nonneg (a := -x) (b := n) (by omega) hn.le
          omega
        have hprod : 0 < n * p := mul_pos hn hp
        rw [hlow]
        constructor
        · rintro ⟨h, -⟩
          exact ⟨h, by omega⟩
        · rintro ⟨h, -⟩
          exact ⟨h, by omega⟩
      · have hhigh : x.tdiv n < p ↔ x < n * p := by
          rw [Int.tdiv_eq_ediv_of_nonneg hnn, Int.ediv_lt_iff_lt_mul hn, mul_comm]
        have hge := Int.tdiv_nonneg hnn hn.le
        have hprod : 0 < n * (p + 1) := mul_pos hn (by omega)
        rw [hhigh]
        constructor
        · rintro ⟨-, h⟩
          exact ⟨by omega, h⟩
        · rintro ⟨-, h⟩
          exact ⟨by omega, h⟩

/-- If the largest dividend is small, the divisor is a power of two. -/
theorem eq_two_pow_of_small {n : Int} (hn : 0 < n) {m : Nat} (hm : clog2 n ≤ m)
    (h : (2 : Int) ^ m - 1 < n * 2 ^ (m - clog2 n).toNat) : ∃ k : Nat, n = 2 ^ k := by
  have hc := clog2_nonneg hn
  have hsplit : (2 : Int) ^ m = 2 ^ (clog2 n).toNat * 2 ^ (m - clog2 n).toNat := by
    rw [← pow_add]
    congr 1
    omega
  have hp := two_pow_pos (m - clog2 n).toNat
  have hle : (2 : Int) ^ (clog2 n).toNat ≤ n := by
    rw [hsplit] at h
    nlinarith
  exact ⟨_, le_antisymm (le_two_pow_clog2 hn) hle⟩

/-- Division by a literal that is not a power of two overflows for some
    dividend that has bits to lose. -/
theorem exists_not_inRange_tDivLiteral (hs : IsIntType s) (hw : 0 < widthOf s) {n : Int}
    (hn : 0 < n) (hpow : ¬ ∃ k : Nat, n = 2 ^ k) (hwide : ¬ NarrowDividend s n) :
    ∃ x, InRange s x ∧ ¬ InRange (tDivLiteral s n) (x.tdiv n) := by
  cases hs with
  | unsigned v =>
      have hv0 : 0 < v := hw
      have hv : clog2 n < v := not_le.mp hwide
      have hp := two_pow_pos v.toNat
      have hx : InRange (.unsigned v) (2 ^ v.toNat - 1) := ⟨hv0, by omega, by omega⟩
      refine ⟨_, hx, fun h => hpow ?_⟩
      have hsmall : _ < n * 2 ^ (v - clog2 n).toNat :=
        (inRange_tDivLiteral_iff (.unsigned v) hx hn hwide).mp h
      exact eq_two_pow_of_small hn (m := v.toNat) (by omega)
        (by rwa [show ((v.toNat : Int) - clog2 n) = v - clog2 n by omega])
  | signed v =>
      have hv0 : 0 < v := hw
      have hv : clog2 n + 1 < v := not_le.mp hwide
      have hp := two_pow_pos (v - 1).toNat
      have hx : InRange (.signed v) (2 ^ (v - 1).toNat - 1) := ⟨hv0, by omega, by omega⟩
      refine ⟨_, hx, fun h => hpow ?_⟩
      have hsmall : _ < n * 2 ^ (v - clog2 n - 1).toNat :=
        ((inRange_tDivLiteral_iff (.signed v) hx hn hwide).mp h).2
      exact eq_two_pow_of_small hn (m := (v - 1).toNat) (by omega)
        (by rwa [show (((v - 1).toNat : Int) - clog2 n) = v - clog2 n - 1 by omega])

/-! ## The remainder of a signed by an unsigned value -/

theorem inRange_tMod_mixed {v w : Int} (hx : InRange (.signed v) x) (hy : InRange (.unsigned w) y)
    (hy0 : 0 < y) (h : w = 1 ∨ v ≤ w) :
    InRange (tMod (.signed v) (.unsigned w)) (x.tmod y) := by
  show InRange (.signed w) (x.tmod y)
  rcases h with rfl | h
  · have hy1 : y = 1 := by
      have := hy.2.2
      norm_num at this
      omega
    rw [hy1, Int.tmod_one]
    exact ⟨by decide, by decide, by decide⟩
  · exact inRange_signed (hx.within_signed.tmod y) (by have := hx.1; omega)

/-- A signed dividend wider than the unsigned divisor can leave a remainder that
    has no room for a sign. -/
theorem exists_not_inRange_tMod {v w : Int} (hw0 : 0 < w) (hw : w ≠ 1) (hv : w < v) :
    ∃ x y, InRange (.signed v) x ∧ InRange (.unsigned w) y ∧ 0 < y ∧
      ¬ InRange (tMod (.signed v) (.unsigned w)) (x.tmod y) := by
  have hhalf : (2 : Int) ^ w.toNat = 2 * 2 ^ (w - 1).toNat := by
    rw [← pow_succ']
    congr 1
    omega
  have hlarge : (2 : Int) ≤ 2 ^ (w - 1).toNat := by
    calc (2 : Int) = 2 ^ 1 := rfl
      _ ≤ 2 ^ (w - 1).toNat := two_pow_le (by omega)
  have hfits : (2 : Int) ^ w.toNat ≤ 2 ^ (v - 1).toNat := two_pow_le (by omega)
  refine ⟨2 ^ w.toNat - 2, 2 ^ w.toNat - 1, ⟨by omega, by omega, by omega⟩,
    ⟨hw0, by omega, by omega⟩, by omega, ?_⟩
  rw [Int.tmod_eq_of_lt (by omega) (by omega)]
  rintro ⟨-, -, hhi⟩
  have hhi : (2 : Int) ^ w.toNat - 2 < 2 ^ (w - 1).toNat := hhi
  omega

end Rules

/-! ## Literal operands -/

theorem isIntLiteral_iff (e : Exp) :
    isIntLiteral e = true ↔ ∃ n, fromIntegralConstexpr e = some n := by
  induction e with
  | intLiteral t w x => exact ⟨fun _ => ⟨x, rfl⟩, fun _ => rfl⟩
  | enumValue t name value ih => exact ih
  | boolLiteral t x | stringLiteral t x | other t =>
      exact ⟨fun h => absurd h Bool.false_ne_true, fun ⟨n, hn⟩ => nomatch hn⟩

theorem isIntLiteral_of_untyped {e : Exp} (h : isUntypedIntLiteral e = true) :
    isIntLiteral e = true := by
  induction e with
  | intLiteral t w x => rfl
  | enumValue t name value ih => exact ih h
  | boolLiteral t x | stringLiteral t x | other t => cases h

theorem takes_literal {e : Exp} {n x : Int} (hn : fromIntegralConstexpr e = some n) :
    Takes e x ↔ x = n := by
  rw [Takes, hn]

theorem takes_runtime {e : Exp} {x : Int} (hn : fromIntegralConstexpr e = none) :
    Takes e x ↔ InRange (typeOfOperand e) x := by
  rw [Takes, hn]

theorem IntOperand.isIntType {e : Exp} (he : IntOperand e) : IsIntType (typeOfOperand e) := by
  rcases he.isInt with ⟨w, hw⟩ | ⟨w, hw⟩ <;> rw [hw]
  · exact .unsigned w
  · exact .signed w

/-- The type of an untyped literal holds the literal. -/
theorem inRange_inferIntLiteralType (x : Int) : InRange (inferIntLiteralType none x) x := by
  rw [inferIntLiteralType]
  split_ifs with h0 hneg
  · subst h0
    exact ⟨by decide, by decide, by decide⟩
  · have hn := le_two_pow_clog2 (n := x.natAbs) (by omega)
    have hc := clog2_nonneg (n := x.natAbs) (by omega)
    exact inRange_signed (m := (clog2 x.natAbs).toNat) ⟨by omega, by
      have := two_pow_pos (clog2 x.natAbs).toNat
      omega⟩ (by omega)
  · have hn := le_two_pow_clog2 (n := x + 1) (by omega)
    have hc := clog2_pos (n := x + 1) (by omega)
    exact ⟨hc, by omega, by omega⟩

theorem isIntType_inferIntLiteralType (x : Int) : IsIntType (inferIntLiteralType none x) := by
  rw [inferIntLiteralType]
  split_ifs
  · exact .unsigned _
  · exact .signed _
  · exact .unsigned _

/-! ## Inference is wide enough -/

/-- The condition under which the type inferred for a binary operator holds
    every result.  It asks something of three operators only. -/
def WideEnough (op : BinaryOp) (a b : Exp) : Prop :=
  match op with
  | .div => ∀ n, fromIntegralConstexpr b = some n → 0 < n →
      (∃ k : Nat, n = 2 ^ k) ∨ NarrowDividend (typeOfOperand a) n ∨
        ∃ x, fromIntegralConstexpr a = some x ∧ SmallDividend (typeOfOperand a) n x
  | .mod => fromIntegralConstexpr b = none → ∀ v w, typeOfOperand a = .signed v →
      typeOfOperand b = .unsigned w → w = 1 ∨ v ≤ w ∨
        ∃ x, fromIntegralConstexpr a = some x ∧
          ∀ y, 0 < y → y < 2 ^ w.toNat → InRange (.signed w) (x.tmod y)
  | .shiftLeft => ∀ n, fromIntegralConstexpr b = some n → n < 2 ^ 63 ∨
      (fromIntegralConstexpr a = some 0 ∧ 0 < widthOf (typeOfOperand a) + wrapInt n)
  | _ => True

/-- No result of the operator on values of the operands overflows the type that
    inference gives. -/
def NeverOverflows (op : BinaryOp) (a b : Exp) : Prop :=
  ∀ x y r, Takes a x → Takes b y → Allowed op y → exactBinary op x y = some r →
    tIsError (inferBinaryOp op a b) = true ∨ InRange (inferBinaryOp op a b) r

theorem not_tIsError {t : Ty} (h : IsIntType t) : tIsError t = false := by
  cases h <;> rfl

section Operators

variable {a b : Exp}

/-- The operators whose rules are always wide enough. -/
theorem neverOverflows_of_ne {op : BinaryOp} (ha : IntOperand a) (hb : IntOperand b)
    (hdiv : op ≠ .div) (hmod : op ≠ .mod) (hshl : op ≠ .shiftLeft) : NeverOverflows op a b := by
  intro x y r hx hy hallowed hr
  have hxr := ha.inRange_of_takes hx
  have hyr := hb.inRange_of_takes hy
  have hta := ha.isIntType
  have htb := hb.isIntType
  cases op with
  | div => exact absurd rfl hdiv
  | mod => exact absurd rfl hmod
  | shiftLeft => exact absurd rfl hshl
  | add => cases hr; exact .inr (inRange_tAdd hta htb hxr hyr)
  | sub => cases hr; exact .inr (inRange_tSub hta htb hxr hyr)
  | lutMul => cases hr; exact .inr (inRange_tMul hta htb hxr hyr)
  | mul =>
      cases hr
      refine .inr ?_
      rw [inferBinaryOp]
      split_ifs with hub hua
      · obtain ⟨n, hn⟩ := (isIntLiteral_iff b).mp (isIntLiteral_of_untyped hub)
        rw [tBinaryOpLiteral, hn, (takes_literal hn).mp hy]
        exact inRange_tMulLiteral hta hxr n
      · obtain ⟨n, hn⟩ := (isIntLiteral_iff a).mp (isIntLiteral_of_untyped hua)
        rw [tBinaryOpLiteral, hn, (takes_literal hn).mp hx, mul_comm]
        exact inRange_tMulLiteral htb hyr n
      · exact inRange_tMul hta htb hxr hyr
  | bitwiseAnd =>
      cases hr
      refine .inr ?_
      rw [inferBinaryOp]
      split_ifs with hub hua
      · obtain ⟨n, hn⟩ := (isIntLiteral_iff b).mp (isIntLiteral_of_untyped hub)
        rw [tBinaryOpLiteral, hn, (takes_literal hn).mp hy]
        exact inRange_tAndLiteral hta hxr n
      · obtain ⟨n, hn⟩ := (isIntLiteral_iff a).mp (isIntLiteral_of_untyped hua)
        rw [tBinaryOpLiteral, hn, (takes_literal hn).mp hx, land_comm]
        exact inRange_tAndLiteral htb hyr n
      · exact inRange_tBitwiseAnd hta htb hxr hyr
  | bitwiseOr =>
      cases hr
      refine .inr ?_
      show InRange (tBitwiseOr (typeOfOperand a) (typeOfOperand b)) _
      rw [tBitwiseOr, hta.tIsInt, htb.tIsInt]
      exact inRange_tSuper (fun h h' => h.lor h') lor_nonneg hta htb hxr hyr
  | bitwiseXor =>
      cases hr
      refine .inr ?_
      show InRange (tBitwiseOr (typeOfOperand a) (typeOfOperand b)) _
      rw [tBitwiseOr, hta.tIsInt, htb.tIsInt]
      exact inRange_tSuper (fun h h' => h.xor h') xor_nonneg hta htb hxr hyr
  | shiftRight =>
      cases hr
      refine .inr ?_
      rw [inferBinaryOp]
      split_ifs with hlit
      · obtain ⟨n, hn⟩ := (isIntLiteral_iff b).mp hlit
        rw [tBinaryOpLiteral, hn, (takes_literal hn).mp hy]
        exact inRange_tShiftRLiteral hta hxr ((takes_literal hn).mp hy ▸ hallowed)
      · rw [tBinaryOp, tShiftR, hta.tIsInt, htb.tIsInt]
        exact inRange_shiftR hta hxr y.toNat
  | and | or | xor => cases hr
  | equal | notEqual | greater | greaterEqual | less | lessEqual =>
      cases hr
      refine .inr ?_
      show _ = _ ∨ _ = _
      split <;> simp

theorem isIntLiteral_eq_false {e : Exp} (h : fromIntegralConstexpr e = none) :
    isIntLiteral e = false := by
  rw [Bool.eq_false_iff]
  intro hlit
  obtain ⟨n, hn⟩ := (isIntLiteral_iff e).mp hlit
  exact nomatch h.symm.trans hn

theorem inferBinaryOp_div_literal {n : Int} (hn : fromIntegralConstexpr b = some n) :
    inferBinaryOp .div a b = tDivLiteral (typeOfOperand a) n := by
  rw [inferBinaryOp, if_pos ((isIntLiteral_iff b).mpr ⟨n, hn⟩), tBinaryOpLiteral, hn]
  rfl

theorem inferBinaryOp_shiftLeft_literal {n : Int} (hn : fromIntegralConstexpr b = some n) :
    inferBinaryOp .shiftLeft a b = tShiftLLiteral (typeOfOperand a) (wrapInt n) := by
  rw [inferBinaryOp, if_pos ((isIntLiteral_iff b).mpr ⟨n, hn⟩), tBinaryOpLiteral, hn]
  rfl

theorem tIsError_tDivLiteral {s : Ty} (hs : IsIntType s) {n : Int} (hn : 0 < n) :
    tIsError (tDivLiteral s n) = false := by
  rw [tDivLiteral_of_pos hs hn]
  cases hs <;> rfl

theorem tIsError_tShiftLLiteral {s : Ty} (hs : IsIntType s) (n : Int) :
    tIsError (tShiftLLiteral s n) = false := by
  unfold tShiftLLiteral
  rw [if_pos hs.tIsInt]
  cases hs <;> rfl

theorem neverOverflows_div_iff (ha : IntOperand a) (hb : IntOperand b) :
    NeverOverflows .div a b ↔ WideEnough .div a b := by
  have hta := ha.isIntType
  constructor
  · intro h n hn hpos
    by_cases hpow : ∃ k : Nat, n = 2 ^ k
    · exact .inl hpow
    by_cases hnarrow : NarrowDividend (typeOfOperand a) n
    · exact .inr (.inl hnarrow)
    refine .inr (.inr ?_)
    -- the quotient of every value of the dividend fits
    have hfits : ∀ x, Takes a x → InRange (tDivLiteral (typeOfOperand a) n) (x.tdiv n) := by
      intro x hx
      rcases h x n _ hx ((takes_literal hn).mpr rfl) hpos rfl with herr | hin
      · rw [inferBinaryOp_div_literal hn, tIsError_tDivLiteral hta hpos] at herr
        cases herr
      · rwa [inferBinaryOp_div_literal hn] at hin
    cases hlit : fromIntegralConstexpr a with
    | some x =>
        refine ⟨x, rfl, ?_⟩
        exact (inRange_tDivLiteral_iff hta (ha.inRange x hlit) hpos hnarrow).mp
          (hfits x ((takes_literal hlit).mpr rfl))
    | none =>
        obtain ⟨x, hx, hnot⟩ :=
          exists_not_inRange_tDivLiteral hta ha.width_pos hpos hpow hnarrow
        exact absurd (hfits x ((takes_runtime hlit).mpr hx)) hnot
  · intro h x y r hx hy hallowed hr
    have hxr := ha.inRange_of_takes hx
    cases hr
    cases hn : fromIntegralConstexpr b with
    | none =>
        refine .inr ?_
        rw [inferBinaryOp, if_neg (by rw [isIntLiteral_eq_false hn]; decide), tBinaryOp, tDiv,
          hta.tIsInt, hb.isIntType.tIsInt]
        exact inRange_tdiv hta hxr hallowed.le
    | some n =>
        obtain rfl := (takes_literal hn).mp hy
        refine .inr ?_
        rw [inferBinaryOp_div_literal hn]
        rcases h y hn hallowed with ⟨k, rfl⟩ | hnarrow | ⟨z, hz, hsmall⟩
        · exact inRange_tDivLiteral_two_pow hta hxr k
        · exact inRange_tDivLiteral_of_narrow hta hxr hallowed hnarrow
        · obtain rfl := (takes_literal hz).mp hx
          by_cases hnarrow : NarrowDividend (typeOfOperand a) y
          · exact inRange_tDivLiteral_of_narrow hta hxr hallowed hnarrow
          · exact (inRange_tDivLiteral_iff hta hxr hallowed hnarrow).mpr hsmall

theorem neverOverflows_mod_iff (ha : IntOperand a) (hb : IntOperand b) :
    NeverOverflows .mod a b ↔ WideEnough .mod a b := by
  have hinfer : fromIntegralConstexpr b = none →
      inferBinaryOp .mod a b = tMod (typeOfOperand a) (typeOfOperand b) := fun hn => by
    rw [inferBinaryOp, if_neg (by rw [isIntLiteral_eq_false hn]; decide), tBinaryOp]
  constructor
  · intro h hn v w hv hw
    by_cases hw1 : w = 1
    · exact .inl hw1
    by_cases hvw : v ≤ w
    · exact .inr (.inl hvw)
    refine .inr (.inr ?_)
    have hw0 : 0 < w := by
      have := hb.width_pos
      rwa [hw] at this
    have hfits : ∀ x y, Takes a x → InRange (.unsigned w) y → 0 < y →
        InRange (tMod (.signed v) (.unsigned w)) (x.tmod y) := by
      intro x y hx hy hy0
      have hty : Takes b y := (takes_runtime hn).mpr (by rwa [hw])
      rcases h x y _ hx hty hy0 rfl with herr | hin
      · rw [hinfer hn, hv, hw] at herr
        cases herr
      · rwa [hinfer hn, hv, hw] at hin
    cases hlit : fromIntegralConstexpr a with
    | some x =>
        exact ⟨x, rfl, fun y hy0 hy => hfits x y ((takes_literal hlit).mpr rfl)
          ⟨hw0, hy0.le, hy⟩ hy0⟩
    | none =>
        obtain ⟨x, y, hx, hy, hy0, hnot⟩ := exists_not_inRange_tMod hw0 hw1 (not_le.mp hvw)
        exact absurd (hfits x y ((takes_runtime hlit).mpr (by rwa [hv])) hy hy0) hnot
  · intro h x y r hx hy hallowed hr
    have hxr := ha.inRange_of_takes hx
    have hyr := hb.inRange_of_takes hy
    cases hr
    refine .inr ?_
    cases hn : fromIntegralConstexpr b with
    | some n =>
        obtain rfl := (takes_literal hn).mp hy
        rw [inferBinaryOp, if_pos ((isIntLiteral_iff b).mpr ⟨y, hn⟩), tBinaryOpLiteral, hn]
        exact inRange_tModLiteral ha.isIntType hxr hallowed
    | none =>
        rw [hinfer hn]
        rcases ha.isInt with ⟨v, hv⟩ | ⟨v, hv⟩
        · rw [hv] at hxr ⊢
          exact inRange_tMod_unsigned hb.isIntType hxr hyr hallowed
        · rcases hb.isInt with ⟨w, hw⟩ | ⟨w, hw⟩
          · rw [hv] at hxr
            rw [hw] at hyr
            rw [hv, hw]
            rcases h hn v w hv hw with hw1 | hvw | ⟨z, hz, hall⟩
            · exact inRange_tMod_mixed hxr hyr hallowed (.inl hw1)
            · exact inRange_tMod_mixed hxr hyr hallowed (.inr hvw)
            · obtain rfl := (takes_literal hz).mp hx
              exact hall y hallowed hyr.2.2
          · rw [hw] at hyr
            rw [hv, hw]
            exact inRange_tMod_signed hyr hallowed

theorem neverOverflows_shiftLeft_iff (ha : IntOperand a) (hb : IntOperand b) :
    NeverOverflows .shiftLeft a b ↔ WideEnough .shiftLeft a b := by
  have hta := ha.isIntType
  constructor
  · intro h n hn
    rcases lt_or_ge n (2 ^ 63) with hlt | hge
    · exact .inl hlt
    refine .inr ?_
    have hfits : ∀ x, Takes a x →
        InRange (tShiftLLiteral (typeOfOperand a) (wrapInt n)) (x * 2 ^ n.toNat) := by
      intro x hx
      rcases h x n _ hx ((takes_literal hn).mpr rfl) (show 0 ≤ n by omega) rfl with herr | hin
      · rw [inferBinaryOp_shiftLeft_literal hn, tIsError_tShiftLLiteral hta] at herr
        cases herr
      · rwa [inferBinaryOp_shiftLeft_literal hn] at hin
    cases hlit : fromIntegralConstexpr a with
    | some x =>
        have hin := hfits x ((takes_literal hlit).mpr rfl)
        by_cases hx : x = 0
        · subst hx
          rw [zero_mul] at hin
          exact ⟨rfl, (inRange_zero_tShiftLLiteral hta _).mp hin⟩
        · exact absurd hin (not_inRange_tShiftLLiteral hta ha.width_lt hge hx)
    | none =>
        -- one bit is enough: the value 1 of an unsigned and -1 of a signed type
        have hone : ∃ x, InRange (typeOfOperand a) x ∧ x ≠ 0 := by
          have hpos := ha.width_pos
          rcases ha.isInt with ⟨w, hw⟩ | ⟨w, hw⟩
          · have hpos : 0 < w := by rwa [hw] at hpos
            have hwithin : Within 1 1 := ⟨by decide, by decide⟩
            rw [hw]
            exact ⟨1, inRange_unsigned hpos (by decide) hwithin (by omega), by decide⟩
          · have hpos : 0 < w := by rwa [hw] at hpos
            have hwithin : Within 0 (-1) := ⟨by decide, by decide⟩
            rw [hw]
            exact ⟨-1, inRange_signed hwithin (by omega), by decide⟩
        obtain ⟨x, hx, hx0⟩ := hone
        exact absurd (hfits x ((takes_runtime hlit).mpr hx))
          (not_inRange_tShiftLLiteral hta ha.width_lt hge hx0)
  · intro h x y r hx hy hallowed hr
    have hxr := ha.inRange_of_takes hx
    have hyr := hb.inRange_of_takes hy
    cases hr
    cases hn : fromIntegralConstexpr b with
    | none =>
        rw [inferBinaryOp, if_neg (by rw [isIntLiteral_eq_false hn]; decide), tBinaryOp]
        exact inRange_tShiftL hta hb.isIntType hxr hyr hallowed
    | some n =>
        obtain rfl := (takes_literal hn).mp hy
        refine .inr ?_
        rw [inferBinaryOp_shiftLeft_literal hn]
        rcases h y hn with hlt | ⟨hz, hpos⟩
        · exact inRange_tShiftLLiteral hta hxr hallowed hlt
        · obtain rfl := (takes_literal hz).mp hx
          rw [zero_mul]
          exact (inRange_zero_tShiftLLiteral hta _).mpr hpos

/-- The type inferred for a binary operator holds every result iff the operator
    is not one of the three whose rules are too narrow, or the operands are not
    those for which they are. -/
theorem neverOverflows_iff (op : BinaryOp) (ha : IntOperand a) (hb : IntOperand b) :
    NeverOverflows op a b ↔ WideEnough op a b := by
  by_cases hdiv : op = .div
  · subst hdiv
    exact neverOverflows_div_iff ha hb
  by_cases hmod : op = .mod
  · subst hmod
    exact neverOverflows_mod_iff ha hb
  by_cases hshl : op = .shiftLeft
  · subst hshl
    exact neverOverflows_shiftLeft_iff ha hb
  refine ⟨fun _ => ?_, fun _ => neverOverflows_of_ne ha hb hdiv hmod hshl⟩
  cases op <;> trivial

end Operators

theorem lnot_eq (v : Int) : Int.lnot v = -v - 1 := by
  cases v with
  | ofNat m => simp only [Int.lnot, Int.negSucc_eq, Int.ofNat_eq_natCast]; omega
  | negSucc m => simp only [Int.lnot, Int.negSucc_eq]; omega

/-- Inversion needs no more bits than its operand and a sign. -/
theorem within_lnot {m : Nat} {v : Int} (hv : Within m v) : Within m (Int.lnot v) := by
  obtain ⟨hlo, hhi⟩ := hv
  rw [lnot_eq]
  exact ⟨by omega, by omega⟩

theorem inRange_tInvert_tSigned {t : Ty} (ht : IsIntType t) {x : Int} (hx : InRange t x) :
    InRange (tInvert (tSigned t)) (Int.lnot x) := by
  cases ht with
  | unsigned w =>
      exact inRange_signed (within_lnot hx.within_unsigned) (by have := hx.1; omega)
  | signed w => exact inRange_signed (within_lnot hx.within_signed) (by have := hx.1; omega)

/-- The type inferred for inversion and negation always holds the result. -/
theorem inferUnaryOp_inRange {op : UnaryOp} {e : Exp} (he : IntOperand e) {x r : Int}
    (hx : Takes e x) (hr : exactUnary op e x = some r) : InRange (inferUnaryOp op e) r := by
  have hxr := he.inRange_of_takes hx
  have ht := he.isIntType
  cases op with
  | neg =>
      cases hr
      rw [inferUnaryOp]
      split_ifs with hlit
      · obtain ⟨n, hn⟩ := (isIntLiteral_iff e).mp hlit
        rw [(takes_literal hn).mp hx, hn, Option.getD_some]
        exact inRange_tSuper_right ht (isIntType_inferIntLiteralType _)
          (inRange_inferIntLiteralType _)
      · exact inRange_tNeg ht hxr
  | invert =>
      rw [exactUnary] at hr
      rw [inferUnaryOp]
      split_ifs at hr ⊢ with huntyped
      · cases hr
        exact inRange_tInvert_tSigned ht hxr
      · rw [tInvert, if_pos ht.tIsInt]
        rcases he.isInt with ⟨w, hw⟩ | ⟨w, hw⟩
        · rw [hw] at hr hxr ⊢
          cases hr
          have h0 := hxr.2.1
          have hlt := hxr.2.2
          exact ⟨hxr.1, by omega, by omega⟩
        · rw [hw] at hr hxr ⊢
          cases hr
          exact inRange_signed (within_lnot hxr.within_signed) (by have := hxr.1; omega)
  | not | bitSizeof | byteSizeof | clog2 => cases hr

/-- Inferred integer types: the type of a binary operator holds every exact
    result iff `WideEnough` says so, and the type of a unary operator always
    does. -/
theorem infer_holds_result_iff (op : BinaryOp) (a b : Exp) (ha : IntOperand a)
    (hb : IntOperand b) :
    (NeverOverflows op a b ↔ WideEnough op a b) ∧
    ∀ (op : UnaryOp) (x r : Int), Takes a x → exactUnary op a x = some r →
      InRange (inferUnaryOp op a) r :=
  ⟨neverOverflows_iff op ha hb, fun _ _ _ hx hr => inferUnaryOp_inRange ha hx hr⟩

/-- A run-time value of type `uint4`. -/
def uint4Value : Exp := .other (.unsigned 4)

/-- The untyped literal `x`. -/
def untypedLiteral (x : Int) : Exp := .intLiteral (inferIntLiteralType none x) none x

theorem intOperand_uint4Value : IntOperand uint4Value :=
  ⟨.inl ⟨4, rfl⟩, by decide, by decide, fun _ h => nomatch h⟩

theorem typeOfOperand_untypedLiteral (x : Int) :
    typeOfOperand (untypedLiteral x) = inferIntLiteralType none x := by
  have htype := isIntType_inferIntLiteralType x
  show typeOfOperand.go (inferIntLiteralType none x) = _
  generalize inferIntLiteralType none x = t at htype ⊢
  cases htype <;> rfl

theorem intOperand_untypedLiteral {x : Int}
    (hw : widthOf (inferIntLiteralType none x) < 2 ^ 63) : IntOperand (untypedLiteral x) := by
  have hin := inRange_inferIntLiteralType x
  have hint := isIntType_inferIntLiteralType x
  have htype := typeOfOperand_untypedLiteral x
  generalize inferIntLiteralType none x = t at hin hint hw htype
  have hlit : ∀ n, fromIntegralConstexpr (untypedLiteral x) = some n →
      InRange (typeOfOperand (untypedLiteral x)) n := by
    intro n hn
    rw [← Option.some.inj hn, htype]
    exact hin
  cases hint with
  | unsigned w => exact ⟨.inl ⟨w, htype⟩, htype ▸ hin.1, htype ▸ hw, hlit⟩
  | signed w => exact ⟨.inr ⟨w, htype⟩, htype ▸ hin.1, htype ▸ hw, hlit⟩

/-- A `uint4` divided by 4 fits, and -5 fits the type of the negated literal 5. -/
theorem infer_holds_result_div_four :
    NeverOverflows .div uint4Value (untypedLiteral 4) ∧
      InRange (inferUnaryOp .neg (untypedLiteral 5)) (-5) :=
  ⟨(infer_holds_result_iff .div uint4Value (untypedLiteral 4) intOperand_uint4Value
      (intOperand_untypedLiteral (by decide))).1.mpr fun n hn _ => .inl ⟨2, by
        cases hn
        decide⟩,
    (infer_holds_result_iff .div (untypedLiteral 5) uint4Value
      (intOperand_untypedLiteral (by decide)) intOperand_uint4Value).2 .neg 5 (-5) rfl rfl⟩

/-- A `uint4` divided by 3 is given two bits, but 15 / 3 is 5. -/
theorem div_three_overflows :
    IntOperand uint4Value ∧ IntOperand (untypedLiteral 3) ∧ Takes uint4Value 15 ∧
      Takes (untypedLiteral 3) 3 ∧ exactBinary .div 15 3 = some 5 ∧
      inferBinaryOp .div uint4Value (untypedLiteral 3) = .unsigned 2 ∧
      ¬ NeverOverflows .div uint4Value (untypedLiteral 3) := by
  have hinfer : inferBinaryOp .div uint4Value (untypedLiteral 3) = .unsigned 2 := by decide
  have htakes : Takes uint4Value 15 := ⟨by decide, by decide, by decide⟩
  refine ⟨intOperand_uint4Value, intOperand_untypedLiteral (by decide), htakes, rfl, rfl, hinfer,
    fun h => ?_⟩
  rcases h 15 3 5 htakes rfl (show (0 : Int) < 3 by decide) rfl with herr | ⟨-, -, hlt⟩
  · rw [hinfer] at herr
    cases herr
  · exact absurd hlt (by decide)

end Kanagawa.Frontend
