/-
  Kanagawa.Library.Divider

  Integer division (`numeric/int/divider/unsigned.k`, `numeric/int/divider/signed.k`).

  The unsigned divider takes the bits of the numerator from the top; the remainder of the bits
  taken so far stays below the denominator.  The signed divider divides absolute values, both in
  the width of the numerator: a wider denominator is cut off.
-/
import Kanagawa.Lib.Except
import Kanagawa.Library.Integers

namespace Kanagawa.Library.Divider

open Frontend Lib Lib.TwosComplement

/-! ## The unsigned divider -/

/-- `bitsizeof`. -/
def bitsizeof (t : Ty) : Nat := (widthOf t).toNat

/-- The variables of the loop. -/
structure DivideState where
  remainder : IntValue
  quotient : IntValue

/-- The body of the `static for`, for a bit of the numerator. -/
def divideBit (numerator denominator : IntValue) (s : DivideState) (bitIndex : Nat) :
    DivideState :=
  let remainder := ((s.remainder.shiftLeft 1).or
    ⟨.unsigned 1, if numerator.bit bitIndex then 1 else 0⟩).cast s.remainder.type
  if remainder.value < denominator.value then
    ⟨remainder, (s.quotient.shiftLeft 1).cast s.quotient.type⟩
  else
    ⟨(remainder.sub denominator).cast s.remainder.type,
      ((s.quotient.shiftLeft 1).or (.const 1)).cast s.quotient.type⟩

/-- The `do` loop, or nothing when the fuel runs out. -/
def divideLoop (UnrollingFactor : Nat) (numerator denominator : IntValue) :
    Nat → IntValue → DivideState → Option DivideState
  | 0, _, _ => none
  | fuel + 1, i, s =>
      let s := (List.range UnrollingFactor).foldl
        (fun s j => divideBit numerator denominator s
          (bitsizeof numerator.type - (i.value.toNat + j) - 1)) s
      let i := (i.add (.const UnrollingFactor)).cast i.type
      if i.value < bitsizeof numerator.type then
        divideLoop UnrollingFactor numerator denominator fuel i s
      else some s

/-- `divide` of `numeric.int.divider.unsigned`; variables without an initial value are zero. -/
def divide (UnrollingFactor fuel : Nat) (numerator denominator : IntValue) :
    Except Failure (Option (IntValue × IntValue)) := do
  assert (denominator.value ≠ 0)
  assert (bitsizeof numerator.type =
    bitsizeof numerator.type / UnrollingFactor * UnrollingFactor)
  let s := divideLoop UnrollingFactor numerator denominator fuel
    ⟨.unsigned (widthOf numerator.type + 1), 0⟩
    ⟨⟨.unsigned (widthOf denominator.type + 1), 0⟩, ⟨numerator.type, 0⟩⟩
  return s.map fun s => (s.quotient.cast numerator.type, s.remainder.cast numerator.type)

/-! ## The signed divider -/

/-- `abs` of `numeric.int.operator`. -/
def abs (a : IntValue) : IntValue :=
  let isNeg := decide (a.value < 0)
  -- All bits of the mask are the sign
  let mask : IntValue := ⟨a.type, convert a.type (if isNeg then 2 ^ bitsizeof a.type - 1 else 0)⟩
  let addend : IntValue := ⟨.unsigned 1, if isNeg then 1 else 0⟩
  ((a.xor mask).add addend).cast (.unsigned (widthOf a.type))

/-- `divide` of `numeric.int.divider.signed`. -/
def divideSigned (UnrollingFactor fuel : Nat) (numerator denominator : IntValue) :
    Except Failure (Option (IntValue × IntValue)) := do
  assert (denominator.value ≠ 0)
  -- `DenominatorWidth` is the width of the numerator, too
  let numeratorWidth := widthOf numerator.type
  let denominatorWidth := widthOf numerator.type
  let numIsNeg := decide (numerator.value < 0)
  let denomIsNeg := decide (denominator.value < 0)
  let numAbs := (abs numerator).cast (.unsigned numeratorWidth)
  let denomAbs := (abs denominator).cast (.unsigned denominatorWidth)
  let result ← divide UnrollingFactor fuel numAbs denomAbs
  return result.map fun result =>
    let quotient := result.1.cast numerator.type
    let remainder := result.2.cast numerator.type
    (if numIsNeg ≠ denomIsNeg then quotient.neg.cast numerator.type else quotient,
      if numIsNeg then remainder.neg.cast numerator.type else remainder)

/-! ## A bit of the numerator -/

variable {N D U : Nat} {n d v : Int}

theorem or_bit (h : 0 ≤ v) (b : Bool) :
    Int.lor (v * 2 ^ 1) (if b then 1 else 0) = 2 * v + if b then 1 else 0 := by
  lift v to Nat using h
  have hor := Nat.two_pow_add_eq_or_of_lt (b := b.toNat) (i := 1) (by cases b <;> decide) v
  have hbit : (if b then 1 else 0 : Int) = (b.toNat : Int) := by cases b <;> rfl
  rw [hbit, show ((v : Int) * 2 ^ 1) = ((2 ^ 1 * v : Nat) : Int) by push_cast; ring]
  show ((2 ^ 1 * v ||| b.toNat : Nat) : Int) = _
  rw [← hor]
  push_cast
  ring

/-- The bits of the numerator down to a position, and the next one. -/
theorem ediv_two_pow_bit (h : InRange (.unsigned N) n) (k : Nat) :
    n / 2 ^ k = 2 * (n / 2 ^ (k + 1)) +
      if IntValue.bit ⟨.unsigned N, n⟩ k then 1 else 0 := by
  obtain ⟨-, h0, hlt⟩ := h
  have hbit : IntValue.bit ⟨.unsigned N, n⟩ k = n.toNat.testBit k := by
    show (n % 2 ^ (N : Int).toNat).toNat.testBit k = _
    rw [Int.emod_eq_of_lt h0 hlt]
  rw [hbit]
  lift n to Nat using h0
  have hdiv : n / 2 ^ (k + 1) = n / 2 ^ k / 2 := by
    rw [Nat.pow_succ, Nat.div_div_eq_div_mul]
  have htest : n.testBit k = decide (n / 2 ^ k % 2 = 1) := Nat.testBit_eq_decide_div_mod_eq
  rw [Int.toNat_natCast, htest]
  norm_cast
  rw [hdiv]
  rcases Nat.mod_two_eq_zero_or_one (n / 2 ^ k) with hmod | hmod
  · rw [if_neg (by rw [hmod]; decide)]
    omega
  · rw [if_pos (by rw [hmod]; decide)]
    omega

/-- Shifting in a bit that fits. -/
theorem shift_or_eq {w : Int} (hv : InRange (.unsigned w) v) {t : IntValue}
    (ht : t.type = .unsigned 1) (b : Bool) (hvalue : t.value = if b then 1 else 0)
    (hfits : InRange (.unsigned w) (2 * v + if b then 1 else 0)) :
    ((IntValue.shiftLeft ⟨.unsigned w, v⟩ 1).or t).cast (.unsigned w) =
      ⟨.unsigned w, 2 * v + if b then 1 else 0⟩ := by
  have hshift : InRange (.unsigned (w + 1)) (v * 2 ^ 1) := by
    have h := inRange_tWidenInt (.unsigned w) hv (n := 2 ^ 1) (k := 1) (c := 1) (by decide)
      (by decide) (by decide)
    exact h
  have hpos := hv.1
  have hleft : IntValue.shiftLeft ⟨.unsigned w, v⟩ 1 = ⟨.unsigned (w + 1), v * 2 ^ 1⟩ := by
    show (⟨_, convert (.unsigned (w + 1)) (v * 2 ^ 1)⟩ : IntValue) = _
    rw [convert_of_inRange (.unsigned _) hshift]
    rfl
  have htype : tBitwiseOr (.unsigned (w + 1)) (.unsigned 1) = .unsigned (w + 1) := by
    show tSuper (.unsigned (w + 1)) (.unsigned 1) = _
    rw [tSuper_unsigned, max_eq_left (by omega)]
  have hwide : InRange (.unsigned (w + 1)) (2 * v + if b then 1 else 0) := by
    have hpow : (2 : Int) ^ w.toNat ≤ 2 ^ (w + 1).toNat := two_pow_le (by omega)
    exact ⟨by omega, hfits.2.1, by have := hfits.2.2; omega⟩
  rw [hleft, IntValue.or, IntValue.cast, IntValue.cast]
  dsimp only
  rw [ht, hvalue, or_bit hv.2.1, htype, convert_of_inRange (.unsigned _) hwide,
    convert_of_inRange (.unsigned _) hfits]

/-- Shifting in a zero. -/
theorem shift_eq {w : Int} (hv : InRange (.unsigned w) v) (hfits : InRange (.unsigned w) (2 * v)) :
    (IntValue.shiftLeft ⟨.unsigned w, v⟩ 1).cast (.unsigned w) = ⟨.unsigned w, 2 * v⟩ := by
  have hshift : InRange (.unsigned (w + 1)) (v * 2 ^ 1) :=
    inRange_tWidenInt (.unsigned w) hv (n := 2 ^ 1) (k := 1) (c := 1) (by decide)
      (by decide) (by decide)
  show (⟨_, convert (.unsigned w) (convert (.unsigned (w + 1)) (v * 2 ^ 1))⟩ : IntValue) = _
  rw [convert_of_inRange (.unsigned _) hshift, show v * 2 ^ 1 = 2 * v by ring,
    convert_of_inRange (.unsigned _) hfits]

/-! ## The loop -/

/-- The variables after some bits of the numerator were taken: what these bits leave and give. -/
def stateAt (N D : Nat) (n d : Int) (k : Nat) : DivideState :=
  ⟨⟨.unsigned (D + 1), n / 2 ^ (N - k) % d⟩, ⟨.unsigned N, n / 2 ^ (N - k) / d⟩⟩

section Unsigned

variable (hn : InRange (.unsigned N) n) (hd : InRange (.unsigned D) d) (hd0 : d ≠ 0)

include hn hd hd0

/-- One bit more. -/
theorem divideBit_eq {k : Nat} (hk : k < N) :
    divideBit ⟨.unsigned N, n⟩ ⟨.unsigned D, d⟩ (stateAt N D n d k) (N - k - 1) =
      stateAt N D n d (k + 1) := by
  obtain ⟨hN, hn0, hnlt⟩ := hn
  obtain ⟨hD, hdnonneg, hdlt⟩ := hd
  have hdpos : 0 < d := by omega
  have hbits := ediv_two_pow_bit ⟨hN, hn0, hnlt⟩ (N - k - 1)
  rw [show N - k - 1 + 1 = N - k by omega] at hbits
  rw [stateAt, stateAt, show N - (k + 1) = N - k - 1 by omega, hbits]
  have htop : n / 2 ^ (N - k - 1) ≤ n := Int.ediv_le_self _ hn0
  have hfront0 : 0 ≤ n / 2 ^ (N - k) := Int.ediv_nonneg hn0 (two_pow_pos _).le
  rw [hbits] at htop
  generalize n / 2 ^ (N - k) = front at *
  generalize hbit : IntValue.bit ⟨.unsigned N, n⟩ (N - k - 1) = b at *
  have hr0 := Int.emod_nonneg front (show d ≠ 0 by omega)
  have hrlt := Int.emod_lt_of_pos front hdpos
  have hq0 := Int.ediv_nonneg hfront0 hdpos.le
  have hfront := Int.emod_add_mul_ediv front d
  have hb : (if b then 1 else 0 : Int) = 0 ∨ (if b then 1 else 0 : Int) = 1 := by
    cases b
    · exact .inl rfl
    · exact .inr rfl
  have hpowD : (2 : Int) ^ ((D : Int) + 1).toNat = 2 * 2 ^ (D : Int).toNat := by
    rw [show ((D : Int) + 1).toNat = (D : Int).toNat + 1 by omega]
    ring
  have hqle : front / d ≤ front := Int.ediv_le_self _ hfront0
  -- What is shifted fits, since the remainder is below the denominator
  have hr : InRange (.unsigned ((D : Int) + 1)) (front % d) := ⟨by omega, hr0, by omega⟩
  have hr' : InRange (.unsigned ((D : Int) + 1)) (2 * (front % d) + if b then 1 else 0) :=
    ⟨by omega, by omega, by omega⟩
  have hq : InRange (.unsigned (N : Int)) (front / d) := ⟨hN, hq0, by omega⟩
  have hstep : 2 * front + (if b then 1 else 0) =
      (2 * (front % d) + if b then 1 else 0) + d * (2 * (front / d)) := by
    conv_lhs => rw [← hfront]
    ring
  rw [divideBit, hbit]
  dsimp only
  rw [shift_or_eq hr rfl b rfl hr']
  dsimp only
  by_cases hlt : (2 * (front % d) + if b then 1 else 0) < d
  · have hquotient : (2 * front + if b then 1 else 0) / d = 2 * (front / d) := by
      rw [hstep, Int.add_mul_ediv_left _ _ (by omega), Int.ediv_eq_zero_of_lt (by omega) hlt,
        Int.zero_add]
    have hremainder : (2 * front + if b then 1 else 0) % d =
        2 * (front % d) + if b then 1 else 0 := by
      rw [hstep, Int.add_mul_emod_self_left, Int.emod_eq_of_lt (by omega) hlt]
    have hq' : InRange (.unsigned (N : Int)) (2 * (front / d)) := by
      have hle := Int.ediv_le_self d (show 0 ≤ 2 * front + if b then 1 else 0 by omega)
      rw [hquotient] at hle
      exact ⟨hN, by omega, by omega⟩
    rw [if_pos hlt, shift_eq hq hq', hquotient, hremainder]
  · have hquotient : (2 * front + if b then 1 else 0) / d = 2 * (front / d) + 1 := by
      rw [hstep, show (2 * (front % d) + if b then 1 else 0) + d * (2 * (front / d)) =
        (2 * (front % d) + (if b then 1 else 0) - d) + d * (2 * (front / d) + 1) by ring,
        Int.add_mul_ediv_left _ _ (by omega), Int.ediv_eq_zero_of_lt (by omega) (by omega),
        Int.zero_add]
    have hremainder : (2 * front + if b then 1 else 0) % d =
        2 * (front % d) + (if b then 1 else 0) - d := by
      rw [hstep, show (2 * (front % d) + if b then 1 else 0) + d * (2 * (front / d)) =
        (2 * (front % d) + (if b then 1 else 0) - d) + d * (2 * (front / d) + 1) by ring,
        Int.add_mul_emod_self_left, Int.emod_eq_of_lt (by omega) (by omega)]
    have hq' : InRange (.unsigned (N : Int)) (2 * (front / d) + 1) := by
      have hle := Int.ediv_le_self d (show 0 ≤ 2 * front + if b then 1 else 0 by omega)
      rw [hquotient] at hle
      exact ⟨hN, by omega, by omega⟩
    have hr'' : InRange (.unsigned ((D : Int) + 1)) (2 * (front % d) + (if b then 1 else 0) - d) :=
      ⟨by omega, by omega, by omega⟩
    have hsub := IntValue.sub_eq (a := ⟨.unsigned ((D : Int) + 1), _⟩) (b := ⟨.unsigned (D : Int), d⟩)
      (.unsigned _) (.unsigned _) hr' ⟨hD, hdnonneg, hdlt⟩
    rw [if_neg hlt, hsub]
    have hconst : (IntValue.const 1).type = .unsigned 1 := by decide
    rw [shift_or_eq hq hconst true rfl hq', hquotient, hremainder, IntValue.cast]
    dsimp only
    rw [convert_of_inRange (.unsigned _) hr'', if_pos rfl]

/-- The bits of one iteration. -/
theorem foldl_divideBit {i : Nat} : ∀ u, i + u ≤ N →
    (List.range u).foldl
      (fun s j => divideBit ⟨.unsigned N, n⟩ ⟨.unsigned D, d⟩ s (N - (i + j) - 1))
      (stateAt N D n d i) = stateAt N D n d (i + u) := by
  intro u
  induction u with
  | zero => exact fun _ => rfl
  | succ u ih =>
      intro hle
      rw [List.range_succ, List.foldl_append, ih (by omega), List.foldl_cons, List.foldl_nil,
        divideBit_eq hn hd hd0 (by omega)]
      rfl

/-- One iteration. -/
theorem divideLoop_succ (hU : 0 < U) {i : Nat} (hi : i + U ≤ N) (fuel : Nat) :
    divideLoop U ⟨.unsigned N, n⟩ ⟨.unsigned D, d⟩ (fuel + 1) ⟨.unsigned (N + 1), i⟩
        (stateAt N D n d i) =
      if i + U < N then
        divideLoop U ⟨.unsigned N, n⟩ ⟨.unsigned D, d⟩ fuel ⟨.unsigned (N + 1), (i + U : Nat)⟩
          (stateAt N D n d (i + U))
      else some (stateAt N D n d (i + U)) := by
  have hpow : ((i + U : Nat) : Int) < 2 ^ ((N : Int) + 1).toNat := by
    have hlt : i + U < 2 ^ (N + 1) := (Nat.lt_two_pow_self (n := i + U)).trans_le
      (Nat.pow_le_pow_right (by decide) (by omega))
    exact_mod_cast hlt
  have hrange : InRange (.unsigned ((N : Int) + 1)) ((i + U : Nat) : Int) :=
    ⟨by omega, by omega, hpow⟩
  have hindex : InRange (.unsigned ((N : Int) + 1)) (i : Int) := ⟨by omega, by omega, by omega⟩
  have hadd : (IntValue.add ⟨.unsigned ((N : Int) + 1), i⟩ (.const U)).cast
      (.unsigned ((N : Int) + 1)) = ⟨.unsigned ((N : Int) + 1), (i + U : Nat)⟩ := by
    rw [IntValue.add_eq (.unsigned _) (IntValue.const_isIntType _) hindex
      (IntValue.const_inRange _), IntValue.cast]
    have hsum : (i : Int) + (IntValue.const U).value = ((i + U : Nat) : Int) := by
      push_cast
      rfl
    dsimp only
    rw [hsum, convert_of_inRange (.unsigned _) hrange]
  rw [divideLoop]
  dsimp only
  rw [hadd]
  have hfold := foldl_divideBit hn hd hd0 U hi
  have hiff : (((i + U : Nat) : Int) < (bitsizeof (.unsigned (N : Int)) : Int)) ↔ i + U < N := by
    rw [show bitsizeof (.unsigned (N : Int)) = N from rfl]
    omega
  by_cases hlt : i + U < N
  · rw [if_pos (hiff.mpr hlt), if_pos hlt]
    exact congrArg _ hfold
  · rw [if_neg (mt hiff.mp hlt), if_neg hlt]
    exact congrArg some hfold

/-- The iterations that are left take the bits that are left. -/
theorem divideLoop_eq (hU : 0 < U) : ∀ (c fuel i : Nat), N = i + (c + 1) * U → c < fuel →
    divideLoop U ⟨.unsigned N, n⟩ ⟨.unsigned D, d⟩ fuel ⟨.unsigned (N + 1), i⟩
      (stateAt N D n d i) = some (stateAt N D n d N) := by
  intro c
  induction c with
  | zero =>
      intro fuel i hi hfuel
      obtain ⟨fuel, rfl⟩ : ∃ f, fuel = f + 1 := ⟨fuel - 1, by omega⟩
      rw [Nat.zero_add, Nat.one_mul] at hi
      rw [divideLoop_succ hn hd hd0 hU (by omega), if_neg (by omega), ← hi]
  | succ c ih =>
      intro fuel i hi hfuel
      obtain ⟨fuel, rfl⟩ : ∃ f, fuel = f + 1 := ⟨fuel - 1, by omega⟩
      have hrest : N = i + U + (c + 1) * U := by
        rw [hi]
        ring
      have hpos : 0 < (c + 1) * U := Nat.mul_pos (Nat.succ_pos c) hU
      rw [divideLoop_succ hn hd hd0 hU (by omega), if_pos (by omega)]
      exact ih fuel (i + U) hrest (by omega)

/-- The unsigned divider is exact. -/
theorem divide_eq (hU : 0 < U) (hdvd : U ∣ N) {fuel : Nat} (hfuel : N ≤ fuel) :
    divide U fuel ⟨.unsigned N, n⟩ ⟨.unsigned D, d⟩ =
      .ok (some (⟨.unsigned N, n / d⟩, ⟨.unsigned N, n % d⟩)) := by
  obtain ⟨c, hc⟩ := hdvd
  have hN : 0 < N := by
    have hpos := hn.1
    omega
  obtain ⟨c, rfl⟩ : ∃ k, c = k + 1 := ⟨c - 1, by
    rcases Nat.eq_zero_or_pos c with rfl | hpos
    · omega
    · omega⟩
  have hfull : bitsizeof (.unsigned (N : Int)) / U * U = N := by
    show N / U * U = N
    exact Nat.div_mul_cancel ⟨c + 1, hc⟩
  have hle : c + 1 ≤ N := by
    rw [hc]
    exact Nat.le_mul_of_pos_left _ hU
  have hinit : stateAt N D n d 0 =
      ⟨⟨.unsigned ((D : Int) + 1), 0⟩, ⟨.unsigned (N : Int), 0⟩⟩ := by
    have hzero : n / 2 ^ N = 0 := Int.ediv_eq_zero_of_lt hn.2.1 hn.2.2
    rw [stateAt, Nat.sub_zero, hzero, Int.zero_emod, Int.zero_ediv]
  have hloop := divideLoop_eq hn hd hd0 hU c fuel 0
    (by rw [hc, Nat.zero_add, Nat.mul_comm]) (by omega)
  rw [hinit] at hloop
  have hdpos : 0 < d := by
    have hnonneg := hd.2.1
    omega
  have hq : InRange (.unsigned (N : Int)) (n / d) :=
    ⟨hn.1, Int.ediv_nonneg hn.2.1 hdpos.le, (Int.ediv_le_self d hn.2.1).trans_lt hn.2.2⟩
  have hr : InRange (.unsigned (N : Int)) (n % d) := by
    refine ⟨hn.1, Int.emod_nonneg n hd0, lt_of_le_of_lt ?_ hn.2.2⟩
    have hsplit := Int.emod_add_mul_ediv n d
    have hmul := mul_nonneg hdpos.le hq.2.1
    omega
  have hasserts : divide U fuel ⟨.unsigned N, n⟩ ⟨.unsigned D, d⟩ =
      .ok ((divideLoop U ⟨.unsigned N, n⟩ ⟨.unsigned D, d⟩ fuel ⟨.unsigned (N + 1), (0 : Nat)⟩
        ⟨⟨.unsigned ((D : Int) + 1), 0⟩, ⟨.unsigned (N : Int), 0⟩⟩).map fun s =>
          (s.quotient.cast (.unsigned N), s.remainder.cast (.unsigned N))) := by
    rw [divide, assert_of_true (decide_eq_true hd0)]
    dsimp only
    rw [hfull, assert_of_true (decide_eq_true (show bitsizeof (.unsigned (N : Int)) = N from rfl))]
    rfl
  rw [hasserts, hloop, stateAt, Nat.sub_self, pow_zero, Int.ediv_one, Option.map_some, IntValue.cast, IntValue.cast,
    convert_of_inRange (.unsigned _) hq, convert_of_inRange (.unsigned _) hr]

end Unsigned

/-! ## Absolute values -/

theorem xor_neg_one (v : Int) : Int.xor v (-1) = -v - 1 := by
  cases v with
  | ofNat m =>
      show Int.negSucc (m ^^^ 0) = _
      rw [Nat.xor_zero, Int.negSucc_eq, Int.ofNat_eq_natCast]
      omega
  | negSucc m =>
      show ((m ^^^ 0 : Nat) : Int) = _
      rw [Nat.xor_zero, Int.negSucc_eq]
      omega

theorem xor_zero (v : Int) : Int.xor v 0 = v := by
  cases v with
  | ofNat m =>
      show Int.ofNat (m ^^^ 0) = _
      rw [Nat.xor_zero]
  | negSucc m =>
      show Int.negSucc (m ^^^ 0) = _
      rw [Nat.xor_zero]

/-- Flipping all bits of a negative value, and adding one. -/
theorem xor_mask (v : Int) :
    Int.xor v (if v < 0 then -1 else 0) + (if v < 0 then 1 else 0) = |v| := by
  by_cases hneg : v < 0
  · rw [if_pos hneg, if_pos hneg, xor_neg_one, abs_of_neg hneg]
    omega
  · rw [if_neg hneg, if_neg hneg, xor_zero, abs_of_nonneg (by omega)]
    omega

theorem abs_range {w : Int} (h : InRange (.signed w) v) :
    0 ≤ |v| ∧ 2 * |v| ≤ 2 ^ w.toNat := by
  obtain ⟨hpos, hlow, hhigh⟩ := h
  have hpow : (2 : Int) ^ w.toNat = 2 * 2 ^ (w - 1).toNat := by
    rw [show w.toNat = (w - 1).toNat + 1 by omega]
    ring
  have hle : |v| ≤ 2 ^ (w - 1).toNat := abs_le.mpr ⟨by omega, by omega⟩
  exact ⟨abs_nonneg v, by omega⟩

theorem abs_eq {w : Int} (h : InRange (.signed w) v) : abs ⟨.signed w, v⟩ = ⟨.unsigned w, |v|⟩ := by
  have hpos := h.1
  have hlow := h.2.1
  have hhigh := h.2.2
  have hpow := two_pow_pos (w - 1).toNat
  have hfull : (2 : Int) ^ w.toNat = 2 * 2 ^ (w - 1).toNat := by
    rw [show w.toNat = (w - 1).toNat + 1 by omega]
    ring
  -- The mask is -1 or 0
  have hmask : convert (.signed w)
      (if decide (v < 0) then 2 ^ bitsizeof (.signed w) - 1 else 0) =
        if v < 0 then -1 else 0 := by
    by_cases hneg : v < 0
    · rw [if_pos (decide_eq_true hneg), if_pos hneg]
      refine convert_eq_of_modEq (.signed w) ⟨hpos, by omega, by omega⟩ ?_
      refine Int.modEq_iff_dvd.mpr ⟨-1, ?_⟩
      show -1 - (2 ^ w.toNat - 1) = 2 ^ w.toNat * -1
      ring
    · rw [if_neg (by rw [decide_eq_false hneg]; exact Bool.false_ne_true), if_neg hneg]
      exact convert_of_inRange (.signed w) ⟨hpos, by omega, by omega⟩
  have htype : tBitwiseOr (.signed w) (.signed w) = .signed w := by
    show tSuper (.signed w) (.signed w) = _
    rw [tSuper_signed, max_self]
  have hbit : (if decide (v < 0) then 1 else 0 : Int) = if v < 0 then 1 else 0 := by
    by_cases hneg : v < 0
    · rw [if_pos (decide_eq_true hneg), if_pos hneg]
    · rw [if_neg (by rw [decide_eq_false hneg]; exact Bool.false_ne_true), if_neg hneg]
  have hsum := xor_mask v
  have hxor : InRange (.signed w) (Int.xor v (if v < 0 then -1 else 0)) := by
    have habs := abs_range h
    rw [hfull] at habs
    refine ⟨hpos, ?_, ?_⟩
    · by_cases hneg : v < 0
      · rw [if_pos hneg, if_pos hneg] at hsum
        rw [if_pos hneg]
        omega
      · rw [if_neg hneg, xor_zero]
        exact hlow
    · by_cases hneg : v < 0
      · rw [if_pos hneg, if_pos hneg] at hsum
        rw [if_pos hneg]
        omega
      · rw [if_neg hneg, xor_zero]
        exact hhigh
  have hone : InRange (.unsigned 1) (if v < 0 then 1 else 0) := by
    by_cases hneg : v < 0
    · rw [if_pos hneg]
      exact ⟨by decide, by decide, by decide⟩
    · rw [if_neg hneg]
      exact ⟨by decide, by decide, by decide⟩
  have habs : InRange (.unsigned w) |v| := by
    obtain ⟨h0, hle⟩ := abs_range h
    exact ⟨hpos, h0, by omega⟩
  rw [abs]
  dsimp only
  have hcast : IntValue.cast (.signed w) ⟨.signed w, Int.xor v (if v < 0 then -1 else 0)⟩ =
      ⟨.signed w, Int.xor v (if v < 0 then -1 else 0)⟩ := by
    rw [IntValue.cast, convert_of_inRange (.signed w) hxor]
  rw [hmask, hbit, IntValue.xor]
  dsimp only
  rw [htype, hcast]
  have hadd := IntValue.add_eq (a := ⟨.signed w, Int.xor v (if v < 0 then -1 else 0)⟩)
    (b := ⟨.unsigned 1, if v < 0 then 1 else 0⟩) (.signed w) (.unsigned 1) hxor hone
  rw [hadd, IntValue.cast]
  dsimp only
  rw [hsum, show widthOf (.signed w) = w from rfl, convert_of_inRange (.unsigned w) habs]

/-! ## Signs -/

theorem tdiv_eq (n d : Int) :
    n.tdiv d = if decide (n < 0) ≠ decide (d < 0) then -(|n| / |d|) else |n| / |d| := by
  by_cases hn : n < 0
  · by_cases hd : d < 0
    · rw [decide_eq_true hn, decide_eq_true hd, if_neg (not_not.mpr rfl), abs_of_neg hn,
        abs_of_neg hd, ← Int.tdiv_eq_ediv_of_nonneg (by omega), Int.neg_tdiv_neg]
    · rw [decide_eq_true hn, decide_eq_false hd, if_pos (Ne.symm Bool.false_ne_true),
        abs_of_neg hn, abs_of_nonneg (by omega), ← Int.tdiv_eq_ediv_of_nonneg (by omega),
        Int.neg_tdiv, Int.neg_neg]
  · by_cases hd : d < 0
    · rw [decide_eq_false hn, decide_eq_true hd, if_pos Bool.false_ne_true,
        abs_of_nonneg (by omega), abs_of_neg hd, ← Int.tdiv_eq_ediv_of_nonneg (by omega),
        Int.tdiv_neg, Int.neg_neg]
    · rw [decide_eq_false hn, decide_eq_false hd, if_neg (not_not.mpr rfl),
        abs_of_nonneg (by omega), abs_of_nonneg (by omega),
        ← Int.tdiv_eq_ediv_of_nonneg (by omega)]

theorem tmod_eq (n d : Int) :
    n.tmod d = if decide (n < 0) = true then -(|n| % |d|) else |n| % |d| := by
  have habs : |n| % |d| = |n|.tmod d := by
    rw [Int.emod_abs, Int.tmod_eq_emod_of_nonneg (abs_nonneg n)]
  rw [habs]
  by_cases hn : n < 0
  · rw [if_pos (decide_eq_true hn), abs_of_neg hn, Int.neg_tmod, Int.neg_neg]
  · rw [if_neg (by rw [decide_eq_false hn]; exact Bool.false_ne_true), abs_of_nonneg (by omega)]

/-- A value that is negated in its type. -/
theorem neg_cast {w : Int} (hw : 0 < w) (a : IntValue) :
    ((a.cast (.signed w)).neg).cast (.signed w) = ⟨.signed w, convert (.signed w) (-a.value)⟩ := by
  have hrange := inRange_convert (.signed w) hw a.value
  have hneg := inRange_tNeg (.signed w) hrange
  rw [IntValue.cast, IntValue.cast, IntValue.neg, IntValue.cast]
  dsimp only
  rw [convert_of_inRange (isIntType_tNeg (.signed w)) hneg]
  congr 1
  exact convert_congr (.signed w) (convert_modEq (.signed w) a.value).neg

/-! ## The signed divider -/

section Signed

variable (hU : 0 < U) (hdvd : U ∣ N) (hn : InRange (.signed N) n) (hd : InRange (.signed D) d)
  (hd0 : d ≠ 0)

include hU hdvd hn hd hd0

/-- The denominator is taken in the width of the numerator. -/
theorem divideSigned_eq {fuel : Nat} (hfuel : N ≤ fuel) :
    divideSigned U fuel ⟨.signed N, n⟩ ⟨.signed D, d⟩ =
      if |d| % 2 ^ N = 0 then .error .assertion
      else .ok (some
        (⟨.signed N, convert (.signed N)
          (if decide (n < 0) ≠ decide (d < 0) then -(|n| / (|d| % 2 ^ N))
            else |n| / (|d| % 2 ^ N))⟩,
          ⟨.signed N, convert (.signed N)
            (if decide (n < 0) = true then -(|n| % (|d| % 2 ^ N)) else |n| % (|d| % 2 ^ N))⟩)) := by
  obtain ⟨hn0, hnle⟩ := abs_range hn
  have hpow := two_pow_pos N
  have hpowN : (2 : Int) ^ (N : Int).toNat = 2 ^ N := rfl
  have hnum : InRange (.unsigned (N : Int)) |n| := ⟨hn.1, hn0, by omega⟩
  have hnumAbs : (abs ⟨.signed N, n⟩).cast (.unsigned N) = ⟨.unsigned N, |n|⟩ := by
    rw [abs_eq hn, IntValue.cast]
    dsimp only
    rw [convert_of_inRange (.unsigned _) hnum]
  have hdenomAbs : (abs ⟨.signed D, d⟩).cast (.unsigned N) = ⟨.unsigned N, |d| % 2 ^ N⟩ := by
    rw [abs_eq hd]
    rfl
  have hdenom : InRange (.unsigned (N : Int)) (|d| % 2 ^ N) :=
    ⟨hn.1, Int.emod_nonneg _ (by omega), Int.emod_lt_of_pos _ hpow⟩
  rw [divideSigned, assert_of_true (decide_eq_true hd0)]
  show (do
    let result ← divide U fuel ((abs ⟨.signed N, n⟩).cast (.unsigned N))
      ((abs ⟨.signed D, d⟩).cast (.unsigned N))
    _) = _
  rw [hnumAbs, hdenomAbs]
  by_cases hzero : |d| % 2 ^ N = 0
  · rw [if_pos hzero, divide, hzero]
    rfl
  · rw [if_neg hzero, divide_eq hnum hdenom hzero hU hdvd hfuel]
    show Except.ok (some (_, _)) = _
    congr 3
    · split
      · exact neg_cast hn.1 _
      · rfl
    · split
      · exact neg_cast hn.1 _
      · rfl

/-- The signed divider is exact if the denominator fits the width of the numerator, or what is
    left of it exceeds the numerator all the same. -/
theorem divideSigned_exact_iff {fuel : Nat} (hfuel : N ≤ fuel) :
    divideSigned U fuel ⟨.signed N, n⟩ ⟨.signed D, d⟩ =
        .ok (some (⟨.signed N, convert (.signed N) (n.tdiv d)⟩,
          ⟨.signed N, convert (.signed N) (n.tmod d)⟩)) ↔
      |d| < 2 ^ N ∨ |n| < |d| % 2 ^ N := by
  obtain ⟨hn0, hnle⟩ := abs_range hn
  have hpow := two_pow_pos N
  have hd0' : 0 < |d| := abs_pos.mpr hd0
  rw [divideSigned_eq hU hdvd hn hd hd0 hfuel, tdiv_eq, tmod_eq]
  by_cases hfits : |d| < 2 ^ N
  · rw [Int.emod_eq_of_lt hd0'.le hfits, if_neg (by omega)]
    exact iff_of_true rfl (.inl hfits)
  · rw [or_iff_right hfits]
    have hnlt : |n| < 2 ^ N := by
      have hle : 2 * |n| ≤ 2 ^ N := hnle
      omega
    have hbig : |n| / |d| = 0 ∧ |n| % |d| = |n| :=
      ⟨Int.ediv_eq_zero_of_lt hn0 (by omega), Int.emod_eq_of_lt hn0 (by omega)⟩
    by_cases hzero : |d| % 2 ^ N = 0
    · rw [if_pos hzero]
      exact iff_of_false nofun (by omega)
    · have hcut0 := Int.emod_nonneg |d| (show (2 : Int) ^ N ≠ 0 by omega)
      rw [if_neg hzero]
      by_cases hlt : |n| < |d| % 2 ^ N
      · rw [hbig.1, hbig.2, Int.ediv_eq_zero_of_lt hn0 hlt, Int.emod_eq_of_lt hn0 hlt]
        exact iff_of_true rfl hlt
      · -- The remainders differ by less than the numerator
        refine iff_of_false (fun h => ?_) hlt
        have hpair := Option.some.inj (Except.ok.inj h)
        have hvalue := congrArg IntValue.value (Prod.mk.inj hpair).2
        dsimp only at hvalue
        rw [hbig.2] at hvalue
        have hmod := Int.emod_lt_of_pos |n| (show 0 < |d| % 2 ^ N by omega)
        have hmod0 := Int.emod_nonneg |n| hzero
        generalize |n| % (|d| % 2 ^ N) = r at hvalue hmod hmod0
        have hcong : r ≡ |n| [ZMOD 2 ^ N] := by
          by_cases hneg : decide (n < 0) = true
          · rw [if_pos hneg, if_pos hneg] at hvalue
            have hnegs : -r ≡ -|n| [ZMOD 2 ^ N] :=
              (convert_modEq (.signed (N : Int)) (-r)).symm.trans
                (hvalue ▸ convert_modEq (.signed (N : Int)) (-|n|))
            have hback := hnegs.neg
            rw [Int.neg_neg, Int.neg_neg] at hback
            exact hback
          · rw [if_neg hneg, if_neg hneg] at hvalue
            exact (convert_modEq (.signed (N : Int)) r).symm.trans
              (hvalue ▸ convert_modEq (.signed (N : Int)) |n|)
        have heq : r = |n| := by
          have h := hcong
          rw [Int.ModEq, Int.emod_eq_of_lt hmod0 (by omega), Int.emod_eq_of_lt hn0 hnlt] at h
          exact h
        omega

end Signed

/-! ## Both dividers -/

/-- The unsigned divider is exact; the signed one is if its denominator fits the width of its
    numerator, or what is left of it exceeds the numerator all the same. -/
theorem dividers_exact_iff {n' d' : Int} (hU : 0 < U) (hdvd : U ∣ N)
    (hn : InRange (.unsigned N) n) (hd : InRange (.unsigned D) d) (hd0 : d ≠ 0)
    (hn' : InRange (.signed N) n') (hd' : InRange (.signed D) d') (hd0' : d' ≠ 0) :
    (∀ fuel ≥ N, divide U fuel ⟨.unsigned N, n⟩ ⟨.unsigned D, d⟩ =
        .ok (some (⟨.unsigned N, n / d⟩, ⟨.unsigned N, n % d⟩)) ∧
      divideSigned U fuel ⟨.signed N, n'⟩ ⟨.signed D, d'⟩ =
        .ok (some (⟨.signed N, convert (.signed N) (n'.tdiv d')⟩,
          ⟨.signed N, convert (.signed N) (n'.tmod d')⟩))) ↔
      |d'| < 2 ^ N ∨ |n'| < |d'| % 2 ^ N := by
  constructor
  · intro h
    exact (divideSigned_exact_iff hU hdvd hn' hd' hd0' (Nat.le_refl N)).mp (h N (Nat.le_refl N)).2
  · intro h fuel hfuel
    exact ⟨divide_eq hn hd hd0 hU hdvd hfuel,
      (divideSigned_exact_iff hU hdvd hn' hd' hd0' hfuel).mpr h⟩

/-- The most negative value of 4 bits by -1, two bits at a time. -/
theorem dividers_exact_four :
    divideSigned 2 4 ⟨.signed (4 : Nat), -8⟩ ⟨.signed (8 : Nat), -1⟩ =
      .ok (some (⟨.signed 4, -8⟩, ⟨.signed 4, 0⟩)) := by
  have hnumerator : InRange (.signed (4 : Nat)) (-8) := ⟨by decide, by decide, by decide⟩
  have hdenominator : InRange (.signed (8 : Nat)) (-1) := ⟨by decide, by decide, by decide⟩
  have h := (dividers_exact_iff (N := 4) (D := 8) (U := 2) (n := 15) (d := 200) (by decide)
    (by decide) ⟨by decide, by decide, by decide⟩ ⟨by decide, by decide, by decide⟩ (by decide)
    hnumerator hdenominator (by decide)).mpr (.inl (by decide))
  exact (h 4 (Nat.le_refl 4)).2

/-- In 4 bits, 5 by 17 is 5 by 1, and 5 by 16 fails. -/
theorem not_divideSigned_exact :
    divideSigned 1 4 ⟨.signed (4 : Nat), 5⟩ ⟨.signed (8 : Nat), 17⟩ ≠
        .ok (some (⟨.signed (4 : Nat), convert (.signed (4 : Nat)) (Int.tdiv 5 17)⟩,
          ⟨.signed (4 : Nat), convert (.signed (4 : Nat)) (Int.tmod 5 17)⟩)) ∧
      divideSigned 1 4 ⟨.signed (4 : Nat), 5⟩ ⟨.signed (8 : Nat), 16⟩ = .error .assertion := by
  constructor
  · intro h
    have hcond := (divideSigned_exact_iff (N := 4) (D := 8) (U := 1) (n := 5) (d := 17) (by decide)
      (by decide) ⟨by decide, by decide, by decide⟩ ⟨by decide, by decide, by decide⟩ (by decide)
      (Nat.le_refl 4)).mp h
    exact absurd hcond (by decide)
  · rw [divideSigned_eq (N := 4) (D := 8) (U := 1) (n := 5) (d := 16) (by decide)
      (by decide) ⟨by decide, by decide, by decide⟩ ⟨by decide, by decide, by decide⟩ (by decide)
      (Nat.le_refl 4), if_pos (by decide)]

end Kanagawa.Library.Divider
