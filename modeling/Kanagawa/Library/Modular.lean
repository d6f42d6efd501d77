/-
  Kanagawa.Library.Modular

  Modular arithmetic (`numeric/int/operator/modular.k`).

  A sum or difference is corrected once, by the modulus, if its sign bit asks for it.  The sum of
  the correction is assigned back to the difference, whose type has one bit more than the operands
  and not more than the modulus: a modulus out of their range is cut off.
-/
import Kanagawa.Lib.Except
import Kanagawa.Library.Integers

namespace Kanagawa.Library.Modular

open Frontend IntValue Lib Lib.TwosComplement

/-! ## The operators -/

/-- `index_t<N>`. -/
def indexType (n : Nat) : Ty := .unsigned (if 1 < n then clog2 n else 1)

/-- `uint1`. -/
def uint1 : Ty := .unsigned 1

/-- `limits<T>::is_signed`. -/
def isSigned (t : Ty) : Bool := convert t (-1) < 0

/-- `sign_bit`. -/
def signBit (input : IntValue) : Bool := input.bit (widthOf input.type - 1).toNat

/-- `add`. -/
def add (M : Nat) (a b : IntValue) : Except Failure IntValue := do
  assert (!isSigned a.type)
  assert (!isSigned b.type)
  -- Inputs must be less than M
  assert (a.value < M)
  assert (b.value < M)
  if M &&& (M - 1) = 0 then
    -- M is a power of 2, simply throw away upper bits
    return (a.add b).cast (indexType M)
  else
    let sum := a.add b
    let diff := sum.sub (const M)
    let result := if !signBit diff then diff.cast sum.type else sum
    assert (result.value < M)
    return result.cast (indexType M)

/-- `increment`. -/
def increment (M : Nat) (a : IntValue) : Except Failure IntValue :=
  add M a ((const 1).cast uint1)

/-- `increment_if`. -/
def incrementIf (M : Nat) (a : IntValue) (b : Bool) : Except Failure IntValue :=
  add M a ⟨uint1, if b then 1 else 0⟩

/-- The correction of a difference that is negative. -/
def restore (M : Nat) (result : IntValue) : Except Failure IntValue :=
  if signBit result then do
    let result := (result.add (const M)).cast result.type
    assert (result.value ≥ 0)
    return result
  else return result

/-- `sub`. -/
def sub (M : Nat) (a b : IntValue) : Except Failure IntValue := do
  assert (!isSigned a.type)
  assert (!isSigned b.type)
  -- Inputs must be less than M
  assert (a.value < M)
  assert (b.value < M)
  if M &&& (M - 1) = 0 then
    -- M is a power of 2, simply throw away upper bits
    return (a.sub b).cast (indexType M)
  else
    let result ← restore M (a.sub b)
    assert (result.value < M)
    return result.cast (indexType M)

/-- `decrement`. -/
def decrement (M : Nat) (a : IntValue) : Except Failure IntValue :=
  sub M a ((const 1).cast uint1)

/-- `decrement_if`. -/
def decrementIf (M : Nat) (a : IntValue) (b : Bool) : Except Failure IntValue :=
  sub M a ⟨uint1, if b then 1 else 0⟩

/-- An operator that returns a result modulo `M`, as an `index_t<M>`. -/
def Exact (M : Nat) (r : Except Failure IntValue) (v : Int) : Prop :=
  r = .ok ⟨indexType M, v % M⟩

/-! ## The type of the result -/

variable {M : Nat} {n p x y v : Int}

theorem isSigned_unsigned (n : Int) : (!isSigned (.unsigned n)) = true := by
  have hpow := two_pow_pos n.toNat
  have hnonneg : 0 ≤ convert (.unsigned n) (-1) := Int.emod_nonneg (-1) (by omega)
  rw [isSigned, decide_eq_false (by omega)]
  rfl

theorem isIntType_indexType (M : Nat) : IsIntType (indexType M) := .unsigned _

theorem convert_indexType_of_lt (h0 : 0 ≤ v) (h : v < M) : convert (indexType M) v = v := by
  apply convert_of_inRange (isIntType_indexType M)
  by_cases hM : 1 < M
  · rw [indexType, if_pos hM]
    have hlog := le_two_pow_clog2 (n := (M : Int)) (by omega)
    exact ⟨clog2_pos (by exact_mod_cast hM), h0, by omega⟩
  · rw [indexType, if_neg hM]
    exact ⟨by decide, h0, by show v < 2; omega⟩

theorem convert_indexType_of_pow2 (hpow : M &&& (M - 1) = 0) (hM : 1 < M) :
    convert (indexType M) v = v % M := by
  obtain ⟨k, rfl⟩ := (Nat.and_sub_one_eq_zero_iff_isPowerOfTwo (by omega)).mp hpow
  have hlog := clog2_two_pow k
  rw [indexType, if_pos hM]
  push_cast
  rw [hlog]
  rfl

/-- The sum or difference of operands below a power of two, without its upper bits. -/
theorem cast_indexType_of_pow2 {t : Ty} (hpow : M &&& (M - 1) = 0) (h : M = 1 → v = 0) (hM : 1 ≤ M) :
    IntValue.cast (indexType M) ⟨t, v⟩ = ⟨indexType M, v % M⟩ := by
  rcases Nat.eq_or_lt_of_le hM with hone | hlt
  · rw [IntValue.cast, h hone.symm, convert_indexType_of_lt (Int.le_refl 0) (by omega), Int.zero_emod]
  · rw [IntValue.cast, convert_indexType_of_pow2 hpow hlt]

theorem signBit_signed {w : Int} (h : InRange (.signed w) v) :
    signBit ⟨.signed w, v⟩ = decide (v < 0) := bit_sign h

/-! ## Addition -/

theorem sum_eq (hx : InRange (.unsigned n) x) (hy : InRange (.unsigned p) y) :
    IntValue.add ⟨.unsigned n, x⟩ ⟨.unsigned p, y⟩ = ⟨.unsigned (1 + max n p), x + y⟩ :=
  add_eq (.unsigned n) (.unsigned p) hx hy

theorem difference_eq (hx : InRange (.unsigned n) x) (hy : InRange (.unsigned p) y) :
    IntValue.sub ⟨.unsigned n, x⟩ ⟨.unsigned p, y⟩ = ⟨.signed (1 + max n p), x - y⟩ :=
  sub_eq (.unsigned n) (.unsigned p) hx hy

/-- A modulus is an unsigned constant. -/
theorem const_modulus (hM : 1 ≤ M) : const M = ⟨.unsigned (clog2 (M + 1)), M⟩ := by
  rw [const, inferIntLiteralType, if_neg (by omega), if_neg (by omega)]

/-- Addition is exact for every modulus. -/
theorem add_exact (hM : 1 ≤ M) (hx : InRange (.unsigned n) x) (hy : InRange (.unsigned p) y)
    (hxM : x < M) (hyM : y < M) :
    Exact M (add M ⟨.unsigned n, x⟩ ⟨.unsigned p, y⟩) (x + y) := by
  have hx0 := hx.2.1
  have hy0 := hy.2.1
  have hasserts : (add M ⟨.unsigned n, x⟩ ⟨.unsigned p, y⟩) =
      if M &&& (M - 1) = 0 then
        .ok ((IntValue.add ⟨.unsigned n, x⟩ ⟨.unsigned p, y⟩).cast (indexType M))
      else do
        let sum := IntValue.add ⟨.unsigned n, x⟩ ⟨.unsigned p, y⟩
        let diff := sum.sub (const M)
        let result := if !signBit diff then diff.cast sum.type else sum
        assert (result.value < M)
        return result.cast (indexType M) := by
    rw [add, assert_of_true (isSigned_unsigned n), assert_of_true (isSigned_unsigned p),
      assert_of_true (decide_eq_true hxM), assert_of_true (decide_eq_true hyM)]
    rfl
  rw [Exact, hasserts, sum_eq hx hy]
  have hsum : InRange (.unsigned (1 + max n p)) (x + y) := inRange_tAdd (.unsigned n) (.unsigned p) hx hy
  split
  next hpow => rw [cast_indexType_of_pow2 hpow (fun hone => by omega) hM]
  next hpow =>
    have hmodulus : InRange (.unsigned (clog2 (M + 1))) M := by
      have h := const_inRange (M : Int)
      rw [const_modulus hM] at h
      exact h
    have hdiff : InRange (.signed (1 + max (1 + max n p) (clog2 (M + 1)))) (x + y - M) :=
      inRange_tSub (.unsigned _) (.unsigned _) hsum hmodulus
    have hsign : signBit (IntValue.sub ⟨.unsigned (1 + max n p), x + y⟩ (const M)) =
        decide (x + y - M < 0) := by
      rw [const_modulus hM, difference_eq hsum hmodulus, signBit_signed hdiff]
    -- Without the sign bit the difference is the result, else the sum
    have hresult : (if !signBit (IntValue.sub ⟨.unsigned (1 + max n p), x + y⟩ (const M)) then
          (IntValue.sub ⟨.unsigned (1 + max n p), x + y⟩ (const M)).cast (.unsigned (1 + max n p))
        else ⟨.unsigned (1 + max n p), x + y⟩) =
        (⟨.unsigned (1 + max n p), (x + y) % M⟩ : IntValue) := by
      rw [hsign]
      by_cases hneg : x + y - M < 0
      · rw [decide_eq_true hneg, Int.emod_eq_of_lt (by omega) (by omega)]
        rfl
      · have hmod : (x + y) % M = x + y - M := by
          rw [← Int.sub_emod_right, Int.emod_eq_of_lt (by omega) (by omega)]
        have hfits : InRange (.unsigned (1 + max n p)) (x + y - M) :=
          ⟨hsum.1, by omega, by have := hsum.2.2; omega⟩
        rw [decide_eq_false hneg, const_modulus hM, difference_eq hsum hmodulus, hmod]
        show (⟨_, convert _ _⟩ : IntValue) = _
        rw [convert_of_inRange (.unsigned _) hfits]
    have hlt : (x + y) % M < M := Int.emod_lt_of_pos _ (by omega)
    dsimp only
    rw [hresult, assert_of_true (decide_eq_true hlt)]
    show Except.ok (IntValue.cast (indexType M) ⟨_, (x + y) % M⟩) = _
    rw [IntValue.cast, convert_indexType_of_lt (Int.emod_nonneg _ (by omega)) hlt]

/-! ## Subtraction -/

/-- The assertions on operands below the modulus hold. -/
theorem sub_eq_ite (hxM : x < M) (hyM : y < M) :
    sub M ⟨.unsigned n, x⟩ ⟨.unsigned p, y⟩ =
      if M &&& (M - 1) = 0 then
        .ok ((IntValue.sub ⟨.unsigned n, x⟩ ⟨.unsigned p, y⟩).cast (indexType M))
      else do
        let result ← restore M (IntValue.sub ⟨.unsigned n, x⟩ ⟨.unsigned p, y⟩)
        assert (result.value < M)
        return result.cast (indexType M) := by
  rw [sub, assert_of_true (isSigned_unsigned n), assert_of_true (isSigned_unsigned p),
    assert_of_true (decide_eq_true hxM), assert_of_true (decide_eq_true hyM)]
  rfl

/-- A difference that is negative, corrected in its own type. -/
theorem restore_of_neg {w : Int} (h : InRange (.signed w) v) (hneg : v < 0) :
    restore M ⟨.signed w, v⟩ = do
      assert (convert (.signed w) (v + M) ≥ 0)
      return ⟨.signed w, convert (.signed w) (v + M)⟩ := by
  have hmodulus := const_inRange (M : Int)
  rw [restore, signBit_signed h, if_pos (decide_eq_true hneg),
    add_eq (.signed w) (const_isIntType _) h hmodulus]
  rfl

theorem restore_of_nonneg {w : Int} (h : InRange (.signed w) v) (hneg : ¬ v < 0) :
    restore M ⟨.signed w, v⟩ = .ok ⟨.signed w, v⟩ := by
  rw [restore, signBit_signed h, if_neg (by rw [decide_eq_false hneg]; exact Bool.false_ne_true)]
  rfl

/-- Subtraction is exact if the corrected difference fits the type of the difference. -/
theorem sub_exact_iff (hM : 1 ≤ M) (hx : InRange (.unsigned n) x) (hy : InRange (.unsigned p) y)
    (hxM : x < M) (hyM : y < M) :
    Exact M (sub M ⟨.unsigned n, x⟩ ⟨.unsigned p, y⟩) (x - y) ↔
      M &&& (M - 1) = 0 ∨ y ≤ x ∨ x - y + M < 2 ^ (max n p).toNat := by
  have hx0 := hx.2.1
  have hy0 := hy.2.1
  have hdiff : InRange (.signed (1 + max n p)) (x - y) :=
    inRange_tSub (.unsigned n) (.unsigned p) hx hy
  have hbits : (1 + max n p - 1).toNat = (max n p).toNat := by
    rw [add_sub_cancel_left]
  rw [Exact, sub_eq_ite hxM hyM, difference_eq hx hy]
  by_cases hpow : M &&& (M - 1) = 0
  · rw [if_pos hpow, cast_indexType_of_pow2 hpow (fun hone => by omega) hM]
    exact iff_of_true rfl (.inl hpow)
  · rw [if_neg hpow, or_iff_right hpow]
    by_cases hneg : x - y < 0
    · rw [restore_of_neg hdiff hneg, or_iff_right (by omega)]
      have hmod : (x - y) % M = x - y + M := by
        rw [← Int.add_emod_right, Int.emod_eq_of_lt (by omega) (by omega)]
      rw [hmod]
      by_cases hfits : x - y + M < 2 ^ (max n p).toNat
      · -- The corrected difference is in the range of the type
        have hrange : InRange (.signed (1 + max n p)) (x - y + M) := by
          have hpos := hdiff.1
          have hlow := two_pow_pos (max n p).toNat
          refine ⟨hpos, ?_, ?_⟩ <;> rw [hbits] <;> omega
        have hnonneg : x - y + M ≥ 0 := by omega
        have hlt : x - y + M < M := by omega
        rw [convert_of_inRange (.signed _) hrange, assert_of_true (decide_eq_true hnonneg)]
        show (do assert _; return _) = _ ↔ _
        rw [assert_of_true (decide_eq_true hlt)]
        show Except.ok (IntValue.cast _ ⟨_, x - y + M⟩) = _ ↔ _
        rw [IntValue.cast, convert_indexType_of_lt hnonneg hlt]
        exact iff_of_true rfl hfits
      · -- Out of the range, it is cut off
        refine iff_of_false (fun h => ?_) hfits
        have hcut := (inRange_convert (.signed (1 + max n p)) hdiff.1 (x - y + M)).2.2
        rw [hbits] at hcut
        simp only [Except.bind_eq_ok_iff] at h
        obtain ⟨result, ⟨_, hassert, hresult⟩, _, hlt, h⟩ := h
        obtain rfl := Except.ok.inj hresult
        have hnonneg : convert (.signed (1 + max n p)) (x - y + M) ≥ 0 :=
          of_decide_eq_true (of_assert hassert)
        have hlt : convert (.signed (1 + max n p)) (x - y + M) < M :=
          of_decide_eq_true (of_assert hlt)
        have hvalue := congrArg IntValue.value (Except.ok.inj h)
        rw [IntValue.cast, convert_indexType_of_lt hnonneg hlt] at hvalue
        dsimp only at hvalue
        omega
    · have hlt : x - y < M := by omega
      rw [restore_of_nonneg hdiff hneg]
      show (do assert _; return _) = _ ↔ _
      rw [assert_of_true (decide_eq_true hlt)]
      show Except.ok (IntValue.cast _ ⟨_, x - y⟩) = _ ↔ _
      rw [IntValue.cast, convert_indexType_of_lt (by omega) hlt,
        Int.emod_eq_of_lt (by omega) hlt]
      exact iff_of_true rfl (.inl (by omega))

/-! ## Steps by one -/

theorem inRange_uint1 (b : Bool) : InRange uint1 (if b then 1 else 0) := by
  cases b
  all_goals exact ⟨by decide, by decide, by decide⟩

/-- A second operand that is not below the modulus trips an assertion. -/
theorem not_exact_of_le {a b : IntValue} (h : M ≤ b.value) :
    ¬ Exact M (add M a b) v ∧ ¬ Exact M (sub M a b) v := by
  have hfail : ∀ {u}, assert (decide (b.value < M)) ≠ .ok u := fun hok =>
    absurd (of_decide_eq_true (of_assert hok)) (by omega)
  constructor
  · intro hexact
    simp only [Exact, add, Except.bind_eq_ok_iff] at hexact
    obtain ⟨_, _, _, _, _, _, _, hok, _⟩ := hexact
    exact hfail hok
  · intro hexact
    simp only [Exact, sub, Except.bind_eq_ok_iff] at hexact
    obtain ⟨_, _, _, _, _, _, _, hok, _⟩ := hexact
    exact hfail hok

theorem incrementIf_exact_iff (hM : 1 ≤ M) (hx : InRange (.unsigned n) x) (hxM : x < M) (b : Bool) :
    Exact M (incrementIf M ⟨.unsigned n, x⟩ b) (x + if b then 1 else 0) ↔ (b = true → 2 ≤ M) := by
  by_cases hlt : (if b then 1 else 0 : Int) < M
  · refine iff_of_true (add_exact hM hx (inRange_uint1 b) hxM hlt) fun hb => ?_
    rw [hb, if_pos rfl] at hlt
    omega
  · refine iff_of_false (not_exact_of_le (Int.not_lt.mp hlt)).1 fun h => hlt ?_
    cases b with
    | false => exact Int.natCast_pos.mpr hM
    | true => exact_mod_cast h rfl

theorem decrementIf_exact_iff (hM : 1 ≤ M) (hx : InRange (.unsigned n) x) (hxM : x < M) (b : Bool) :
    Exact M (decrementIf M ⟨.unsigned n, x⟩ b) (x - if b then 1 else 0) ↔
      (b = true → 2 ≤ M ∧
        (M &&& (M - 1) = 0 ∨ 1 ≤ x ∨ x - 1 + M < 2 ^ (max n 1).toNat)) := by
  by_cases hlt : (if b then 1 else 0 : Int) < M
  · have hiff := sub_exact_iff hM hx (inRange_uint1 b) hxM hlt
    refine hiff.trans ?_
    cases b with
    | false => exact iff_of_true (.inr (.inl hx.2.1)) nofun
    | true =>
        have htwo : 2 ≤ M := by exact_mod_cast hlt
        constructor
        · exact fun h _ => ⟨htwo, h⟩
        · exact fun h => (h rfl).2
  · refine iff_of_false (not_exact_of_le (Int.not_lt.mp hlt)).2 fun h => hlt ?_
    cases b with
    | false => exact Int.natCast_pos.mpr hM
    | true => exact_mod_cast (h rfl).1

theorem increment_eq (a : IntValue) : increment M a = incrementIf M a true := rfl

theorem decrement_eq (a : IntValue) : decrement M a = decrementIf M a true := rfl

/-- The modular operators are exact if the modulus is above the step of one, and is a power of
    two, or does not leave the range of the operands when it restores a difference. -/
theorem modular_exact_iff (hM : 1 ≤ M) (hx : InRange (.unsigned n) x) (hy : InRange (.unsigned p) y)
    (hxM : x < M) (hyM : y < M) (b : Bool) :
    (Exact M (add M ⟨.unsigned n, x⟩ ⟨.unsigned p, y⟩) (x + y) ∧
      Exact M (sub M ⟨.unsigned n, x⟩ ⟨.unsigned p, y⟩) (x - y) ∧
      Exact M (increment M ⟨.unsigned n, x⟩) (x + 1) ∧
      Exact M (decrement M ⟨.unsigned n, x⟩) (x - 1) ∧
      Exact M (incrementIf M ⟨.unsigned n, x⟩ b) (x + if b then 1 else 0) ∧
      Exact M (decrementIf M ⟨.unsigned n, x⟩ b) (x - if b then 1 else 0)) ↔
    2 ≤ M ∧ (M &&& (M - 1) = 0 ∨
      (y ≤ x ∨ x - y + M < 2 ^ (max n p).toNat) ∧
        (1 ≤ x ∨ x - 1 + M < 2 ^ (max n 1).toNat)) := by
  have hincrement := incrementIf_exact_iff hM hx hxM true
  have hdecrement := decrementIf_exact_iff hM hx hxM true
  rw [if_pos rfl] at hincrement hdecrement
  rw [sub_exact_iff hM hx hy hxM hyM, increment_eq, decrement_eq, hincrement, hdecrement,
    incrementIf_exact_iff hM hx hxM b, decrementIf_exact_iff hM hx hxM b]
  constructor
  · rintro ⟨-, hsub, htwo, hone, -, -⟩
    refine ⟨htwo rfl, ?_⟩
    by_cases hpow : M &&& (M - 1) = 0
    · exact .inl hpow
    · exact .inr ⟨hsub.resolve_left hpow, (hone rfl).2.resolve_left hpow⟩
  · rintro ⟨htwo, h⟩
    have hsub := h.imp_right And.left
    have hone := h.imp_right And.right
    exact ⟨add_exact hM hx hy hxM hyM, hsub, fun _ => htwo, fun _ => ⟨htwo, hone⟩, fun _ => htwo,
      fun _ => ⟨htwo, hone⟩⟩

/-- Operands of 4 and 2 bits modulo 10. -/
theorem modular_exact_mod_ten :
    Exact 10 (sub 10 ⟨.unsigned 4, 1⟩ ⟨.unsigned 2, 3⟩) 8 := by
  have h := (modular_exact_iff (M := 10) (n := 4) (p := 2) (x := 1) (y := 3) (by decide)
    ⟨by decide, by decide, by decide⟩ ⟨by decide, by decide, by decide⟩ (by decide) (by decide)
    true).mpr (by decide)
  exact h.2.1

/-- Modulo 100, the difference of 0 and 1 in 2 bits is 3 instead of 99. -/
theorem not_sub_exact_mod_hundred :
    ¬ Exact 100 (sub 100 ⟨.unsigned 2, 0⟩ ⟨.unsigned 2, 1⟩) (0 - 1) ∧
      ¬ Exact 1 (increment 1 ⟨.unsigned 1, 0⟩) (0 + 1) := by
  constructor
  · rw [sub_exact_iff (by decide) ⟨by decide, by decide, by decide⟩
      ⟨by decide, by decide, by decide⟩ (by decide) (by decide)]
    decide
  · rw [increment_eq]
    exact (not_exact_of_le (by decide)).1

end Kanagawa.Library.Modular
